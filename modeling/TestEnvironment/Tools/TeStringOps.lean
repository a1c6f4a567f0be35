import TestEnvironment.Tools.TeString

/-!
What the operations on dynamic strings leave in the buffer: every one keeps the text with
its terminating zero, provided that there is a buffer or the text is longer than the
reserve of a string without one.
-/
namespace TestEnvironment.Tools
open Lib

section
variable {α β : Type} {r : Except Stop α} {f : α → Except Stop β} {P : α → Prop} {Q : β → Prop}

/-- The call ends the program on purpose, or returns with the condition met. -/
def Safe (r : Except Stop α) (P : α → Prop) : Prop :=
  match r with
  | .ok a => P a
  | .error .fatal => True
  | .error .fault => False

theorem Safe.bind (first : Safe r P) (rest : ∀ a, P a → Safe (f a) Q) : Safe (r >>= f) Q := by
  cases r with
  | ok a => exact rest a first
  | error stop =>
    cases stop with
    | fatal => trivial
    | fault => exact first.elim
theorem Safe.mono {R : α → Prop} (first : Safe r P) (implied : ∀ a, P a → R a) : Safe r R := by
  cases r with
  | ok a => exact implied a first
  | error stop =>
    cases stop with
    | fatal => trivial
    | fault => exact first.elim
end

section
variable {str : TeString} {front content text : CStr} {off : Nat}

/-- The buffer on the heap starts with the text. -/
structure Heap (str : TeString) (front : CStr) : Prop where
  cells : ∃ cells, str.ptr = some cells ∧ cells.length = str.size ∧ front.map some <+: cells
  limit : str.size ≤ PTRDIFF_MAX

theorem readString_text (rest : List (Option Char)) (plain : '\x00' ∉ content) :
    readString ((content ++ ['\x00']).map some ++ rest) = .ok content := by
  induction content with
  | nil => rfl
  | cons c content ih =>
    obtain ⟨first,others⟩ := List.ne_and_not_mem_of_not_mem_cons plain
    simp only [map_append,map_cons,cons_append,readString] at ih ⊢
    rw [if_neg (Ne.symm first),ih others]
    rfl

namespace Heap
theorem inside (heap : Heap str front) : front.length ≤ str.size := by grind [cells]
theorem start (heap : Heap str (front ++ text)) : Heap str front := by
  obtain ⟨⟨cells,ptr,length,start⟩,limit⟩ := heap
  exact ⟨⟨cells,ptr,length,(by simp : front.map some <+: (front ++ text).map some).trans start⟩,limit⟩
theorem of_ptr {other : TeString} (heap : Heap str front) (ptr : other.ptr = str.ptr) (size : other.size = str.size) : Heap other front := by
  obtain ⟨⟨cells,own,length,start⟩,limit⟩ := heap
  exact ⟨⟨cells,ptr.trans own,size ▸ length,start⟩,size ▸ limit⟩
theorem write (heap : Heap str front) (within : off ≤ front.length) (fits : off+text.length ≤ str.size) :
    Safe (str.write off text) fun s => Heap s (front.take off ++ text) ∧ s.len = str.len ∧ s.size = str.size := by
  obtain ⟨⟨cells,ptr,length,start⟩,limit⟩ := heap
  have fits : off+text.length ≤ cells.length := length ▸ fits
  have written : str.write off text = .ok {str with ptr := some (overwrite cells off (text.map some))} := by
    rw [TeString.write,ptr]
    exact if_pos fits
  rw [written]
  refine ⟨⟨⟨_,rfl,?_,?_⟩,limit⟩,rfl,rfl⟩
  · rw [overwrite_length (by simpa using fits)]
    exact length
  · grind [overwrite_front,List.map_take]
/-- Text right behind what the buffer starts with. -/
theorem extend (heap : Heap str front) (here : off = front.length) (fits : off+text.length ≤ str.size) :
    Safe (str.write off text) fun s => Heap s (front ++ text) ∧ s.len = str.len ∧ s.size = str.size := by
  have written := heap.write (le_of_eq here) fits
  rwa [take_of_length_le (le_of_eq here.symm)] at written
/-- One character is overwritten within what the buffer starts with. -/
theorem put {before behind : CStr} {old : Char} (new : Char) (heap : Heap str (before ++ old :: behind)) :
    Safe (str.write before.length [new]) fun s => Heap s (before ++ new :: behind) ∧ s.len = str.len ∧ s.size = str.size := by
  have inside := heap.inside
  obtain ⟨⟨cells,ptr,length,start⟩,limit⟩ := heap
  rw [length_append,length_cons] at inside
  have written : str.write before.length [new] = .ok {str with ptr := some (overwrite cells before.length [some new])} := by
    rw [TeString.write,ptr]
    exact if_pos (show before.length+1 ≤ cells.length by omega)
  rw [written]
  rw [map_append,map_cons] at start
  have kept := @overwrite_cell _ _ _ _ _ (some new) start
  rw [length_map] at kept
  refine ⟨⟨⟨_,rfl,?_,by simpa using kept⟩,limit⟩,rfl,rfl⟩
  rw [overwrite_length (by rw [length_singleton]; omega)]
  exact length
theorem value (heap : Heap str front) (text : (content ++ ['\x00']) <+: front) (plain : '\x00' ∉ content) : str.value = .ok content := by
  obtain ⟨⟨cells,ptr,_,start⟩,_⟩ := heap
  obtain ⟨rest,rfl⟩ := (text.map some).trans start
  rw [TeString.value,ptr]
  exact readString_text rest plain
theorem read {c : Char} (heap : Heap str front) (at' : front[off]? = some c) : str.read off = .ok c := by
  obtain ⟨⟨cells,ptr,_,⟨rest,rfl⟩⟩,_⟩ := heap
  obtain ⟨inside,_⟩ := List.getElem?_eq_some_iff.mp at'
  rw [TeString.read,ptr]
  simp only
  rw [getElem?_append_left (by simpa using inside),getElem?_map,at']
  rfl
end Heap

/-- A string as its users see it: its text, and the terminating zero where there is a buffer. -/
inductive HoldsText (str : TeString) (content : CStr) : Prop
  | null (ptr : str.ptr = none) (len : str.len = 0) (empty : content = [])
  | heap (heap : Heap str (content ++ ['\x00'])) (len : str.len = content.length)

namespace HoldsText

variable (holds : HoldsText str content)
include holds
theorem len : str.len = content.length := by
  cases holds with
  | null _ len empty => rw [len,empty]; rfl
  | heap _ len => exact len
theorem of_buffer (buffer : str.ptr ≠ none) : Heap str (content ++ ['\x00']) := by
  cases holds with
  | null ptr => exact absurd ptr buffer
  | heap heap => exact heap
theorem of_some (more : content ≠ []) : Heap str (content ++ ['\x00']) := by
  cases holds with
  | null _ _ empty => exact absurd empty more
  | heap heap => exact heap
theorem small : content.length < PTRDIFF_MAX := by
  cases holds with
  | null _ _ empty => rw [empty]; decide
  | heap heap =>
    have inside := heap.inside
    have limit := heap.limit
    simp only [length_append,length_singleton] at inside
    omega
end HoldsText

end

section
variable {page : Page} {str : TeString} {front content : CStr} {size : Nat}

theorem growLoop_ge (str_size size grow grow_factor : Nat) : size ≤ growLoop str_size size grow grow_factor := by
  induction grow generalizing grow_factor with
  | zero => exact le_rfl
  | succ grow ih => grind [growLoop]
theorem growLoop_small (str_size grow grow_factor : Nat) (small : size < SIZE_MOD) : growLoop str_size size grow grow_factor < SIZE_MOD := by
  induction grow generalizing grow_factor with
  | zero => exact small
  | succ grow ih =>
    rw [growLoop]
    split_ifs
    · exact mod_lt _ (by decide)
    · exact ih _
/-- The correction for whole pages never wraps around. -/
theorem page_correction (page : Page) (small : size < SIZE_MOD) :
    size ≤ if page.size < (size+malloc_header_size)%SIZE_MOD then
      (size+(page.size-(size+malloc_header_size)%SIZE_MOD%page.size))%SIZE_MOD else size := by
  have large := page.large
  have header : malloc_header_size = 32 := rfl
  have range : 32 < SIZE_MOD := by decide
  split_ifs with more
  · have total : size+malloc_header_size < SIZE_MOD := by
      by_contra wraps
      rw [Nat.mod_eq_sub_mod (by omega),mod_eq_of_lt (by omega)] at more
      omega
    rw [mod_eq_of_lt total] at more ⊢
    have parts := Nat.div_add_mod (size+malloc_header_size) page.size
    -- the next whole number of pages is still within the type
    have next : page.size*((size+malloc_header_size)/page.size+1) ≤ SIZE_MOD := by
      obtain ⟨pages,whole⟩ := page.divides
      rw [whole] at total ⊢
      exact Nat.mul_le_mul_left _ (Nat.succ_le_of_lt (Nat.div_lt_of_lt_mul total))
    rw [Nat.mul_succ] at next
    rw [mod_eq_of_lt (by omega)]
    omega
  · exact le_rfl
theorem realloc_heap (heap : Heap str front) (grows : str.size ≤ size) :
    Safe (str.realloc size) fun s => Heap s front ∧ s.len = str.len ∧ s.size = size := by
  obtain ⟨⟨cells,ptr,length,start⟩,_⟩ := heap
  rw [TeString.realloc]
  split_ifs with large
  · trivial
  · refine ⟨⟨⟨_,rfl,?_,?_⟩,Nat.le_of_not_lt large⟩,rfl,rfl⟩
    · grind
    · grind [prefix_resize]
theorem realloc_null (ptr : str.ptr = none) : Safe (str.realloc size) fun s => Heap s [] ∧ s.len = str.len ∧ s.size = size := by
  rw [TeString.realloc]
  split_ifs with large
  · trivial
  · exact ⟨⟨⟨_,rfl,by simp [ptr], nil_prefix⟩,Nat.le_of_not_lt large⟩,rfl,rfl⟩
theorem reserve_heap (heap : Heap str front) (small : size < SIZE_MOD) :
    Safe (te_string_reserve page str size) fun s => Heap s front ∧ s.len = str.len ∧ size ≤ s.size ∧ str.size ≤ s.size := by
  rw [te_string_reserve]
  split_ifs with room
  · exact ⟨heap,rfl,room,le_rfl⟩
  · have grown := growLoop_ge str.size size TE_STRING_GROW_FACTOR_EXP_LIMIT 1
    have rounded := page_correction page (growLoop_small str.size TE_STRING_GROW_FACTOR_EXP_LIMIT 1 small)
    refine (realloc_heap heap (by omega)).mono fun s kept => ⟨kept.1,kept.2.1,?_,?_⟩ <;>
    · rw [kept.2.2]
      omega
theorem reserve_null (ptr : str.ptr = none) (more : str.size < size) (small : size < SIZE_MOD) :
    Safe (te_string_reserve page str size) fun s => Heap s [] ∧ s.len = str.len ∧ size ≤ s.size := by
  rw [te_string_reserve,if_neg (by omega)]
  have grown := growLoop_ge str.size size TE_STRING_GROW_FACTOR_EXP_LIMIT 1
  have rounded := page_correction page (growLoop_small str.size TE_STRING_GROW_FACTOR_EXP_LIMIT 1 small)
  refine (realloc_null ptr).mono fun s made => ⟨made.1,made.2.1,?_⟩
  rw [made.2.2]
  omega

/-- The size is in range, and a string without buffer gets one for it. -/
def Reaches (str : TeString) (size : Nat) : Prop := size < SIZE_MOD ∧ (str.ptr = none → str.size < size)

theorem reserve_room (holds : HoldsText str content) (reaches : Reaches str size) :
    Safe (te_string_reserve page str size) fun s => Heap s content ∧ s.len = content.length ∧ size ≤ s.size := by
  cases holds with
  | null ptr len empty =>
    subst empty
    exact (reserve_null ptr (reaches.2 ptr) reaches.1).mono fun s made => ⟨made.1,made.2.1.trans len,made.2.2⟩
  | heap heap len => exact (reserve_heap heap reaches.1).mono fun s kept => ⟨kept.1.start,kept.2.1.trans len,kept.2.2.1⟩
end

section
variable {page : Page} {str : TeString} {content text : CStr} {buf : Source}

@[simp] theorem Source.text_length (buf : Source) : buf.text.length = buf.length := by
  cases buf with
  | bytes text => rfl
  | zeros len => exact length_replicate

/-- A string that may be printed to: without buffer, or with room for one character more. -/
inductive Printable (str : TeString) (content : CStr) : Prop
  | null (ptr : str.ptr = none) (len : str.len = 0) (empty : content = [])
  | heap (heap : Heap str content) (len : str.len = content.length) (room : str.len < str.size)

theorem HoldsText.printable (holds : HoldsText str content) : Printable str content := by
  cases holds with
  | null ptr len empty => exact .null ptr len empty
  | heap heap len =>
    have inside := heap.inside
    simp only [length_append,length_singleton] at inside
    exact .heap heap.start len (by omega)
theorem allocFirst_room (printable : Printable str content) :
    Safe (allocFirst str) fun s => Heap s content ∧ s.len = content.length ∧ s.len < s.size := by
  rw [allocFirst]
  cases printable with
  | null ptr len empty =>
    subst empty
    rw [ptr]
    refine (realloc_null ptr).bind fun s ⟨made,_,size⟩ => ⟨made.of_ptr rfl rfl,rfl,?_⟩
    show 0 < s.size
    rw [size]
    split_ifs with reserve
    · omega
    · decide
  | heap heap len room =>
    obtain ⟨⟨cells,ptr,length,start⟩,limit⟩ := heap
    rw [ptr]
    exact ⟨⟨⟨cells,ptr,length,start⟩,limit⟩,len,room⟩
theorem printFirst_room (heap : Heap str content) (len : str.len = content.length) (room : str.len < str.size) (short : text.length ≤ INT_MAX) :
    Safe (printFirst page str text) fun s => Heap s content ∧ s.len = content.length ∧ s.len+text.length+1 ≤ s.size := by
  rw [printFirst]
  by_cases cut : str.size-str.len ≤ text.length
  · have limit := heap.limit
    rw [if_pos cut]
    refine (@Heap.extend _ _ (text.take (str.size-str.len-1) ++ ['\x00']) _ heap len ?_).bind fun s heap1 => ?_
    · grind
    · have small : s.len+text.length+1 < SIZE_MOD := by
        have numbers : PTRDIFF_MAX+INT_MAX+1 < SIZE_MOD := by decide
        omega
      rw [mod_eq_of_lt small]
      exact (reserve_heap heap1.1.start small).mono fun s2 ⟨heap2,len2,enough,_⟩ => ⟨heap2,by omega,by omega⟩
  · rw [if_neg cut]
    exact ⟨heap,len,by omega⟩
/-- Formatted text is appended; nothing is needed of the reserve. -/
theorem append_heap (printable : Printable str content) :
    Safe (te_string_append page str text) fun s => Heap s (content ++ text ++ ['\x00']) ∧ s.len = (content ++ text).length := by
  refine (allocFirst_room printable).bind fun s ⟨heap,len,room⟩ => ?_
  rw [if_neg (not_not_intro room)]
  by_cases long : INT_MAX < text.length
  · rw [if_pos long]
    trivial
  · rw [if_neg long]
    refine (printFirst_room heap len room (by omega)).bind fun s1 ⟨heap1,len1,enough⟩ => ?_
    refine (@Heap.extend _ _ (text ++ ['\x00']) _ heap1 len1 ?_).bind fun s2 ⟨heap2,len2,_⟩ => ?_
    · simp only [length_append,length_singleton]
      omega
    · refine ⟨append_assoc _ _ _ ▸ heap2.of_ptr rfl rfl,?_⟩
      show s2.len+text.length = _
      rw [length_append,len2,len1]
theorem append_holds (printable : Printable str content) :
    Safe (te_string_append page str text) fun s => HoldsText s (content ++ text) :=
  (append_heap printable).mono fun _ ⟨heap,len⟩ => .heap heap len
theorem append_buf_holds (holds : HoldsText str content) (reaches : buf.length ≠ 0 → Reaches str (content.length+buf.length+1)) :
    Safe (te_string_append_buf page str buf) fun s => HoldsText s (content ++ buf.text) := by
  rw [te_string_append_buf]
  split_ifs with empty
  · have nothing : buf.text = [] := length_eq_zero_iff.mp (buf.text_length.trans empty)
    rw [nothing,append_nil]
    exact holds
  · have reaches := reaches empty
    rw [holds.len,mod_eq_of_lt reaches.1]
    refine (reserve_room holds reaches).bind fun s ⟨heap,len,enough⟩ => ?_
    refine (@Heap.extend _ _ buf.text _ heap len (by rw [buf.text_length]; omega)).bind fun s1 ⟨heap1,len1,size1⟩ => ?_
    have heap2 : Heap {s1 with len := s1.len+buf.length} (content ++ buf.text) := heap1.of_ptr rfl rfl
    have length : s1.len+buf.length = (content ++ buf.text).length := by simp_all
    exact (@Heap.extend _ _ ['\x00'] (s1.len+buf.length) heap2 length (show s1.len+buf.length+1 ≤ s1.size by omega)).mono
      fun s2 ⟨heap3,len3,_⟩ => .heap heap3 (len3.trans length)

end

section
variable {page : Page} {str : TeString} {content before part behind : CStr} {buf : Source} {seg_start seg_len : Nat}

/-- What stands for a segment: behind the end the text is first filled up with zeros. -/
def replaceText (content : CStr) (seg_start seg_len : Nat) (text : CStr) : CStr :=
  if content.length ≤ seg_start then content ++ replicate (seg_start-content.length) '\x00' ++ text
  else content.take seg_start ++ text ++ content.drop (seg_start+seg_len)
/-- The start of a segment, `TE_STRING_POS_AUTO` standing for the last `seg_len` bytes. -/
def segStart (len seg_start seg_len : Nat) : Nat := if seg_start = SIZE_MAX then len-seg_len else seg_start
/-- The sizes are in range, and a string without buffer gets one at the first bytes stored. -/
def ReplaceFits (str : TeString) (seg_start seg_len length : Nat) : Prop :=
  if str.len ≤ seg_start then
    (str.len < seg_start → Reaches str (seg_start+1)) ∧
    (length ≠ 0 → seg_start+length+1 < SIZE_MOD ∧ (seg_start = str.len → Reaches str (seg_start+length+1)))
  else str.len+length+1-min seg_len (str.len-seg_start) < SIZE_MOD

theorem move_write {cells : List (Option Char)} (ptr : str.ptr = some cells) (length : cells.length = str.size) {dst src n off : Nat} {text : CStr}
    (target : dst+n ≤ str.size) (source : src+n ≤ str.size) (fits : off+text.length ≤ str.size) :
    (do let str ← str.move dst src n; str.write off text) =
      .ok {str with ptr := some (overwrite (overwrite cells dst ((cells.drop src).take n)) off (text.map some))} := by
  have taken : ((cells.drop src).take n).length = n := by
    rw [length_take,length_drop]
    omega
  have length2 := @overwrite_length _ cells ((cells.drop src).take n) dst (by omega)
  rw [TeString.move,ptr]
  simp only
  rw [if_pos (by omega)]
  simp only [bind,Except.bind]
  rw [TeString.write]
  exact if_pos (by omega)
theorem replaceSegment_holds (holds : HoldsText str (before ++ part ++ behind)) (more : before ++ part ++ behind ≠ [])
    (fits : str.len+buf.length+1-part.length < SIZE_MOD) :
    Safe (replaceSegment page str before.length part.length buf) fun s => HoldsText s (before ++ buf.text ++ behind) := by
  have len := holds.len
  rw [replaceSegment,mod_eq_of_lt fits]
  refine (reserve_heap (holds.of_some more) fits).bind fun s ⟨kept,len1,enough,_⟩ => ?_
  have room := kept.inside
  obtain ⟨⟨cells,ptr,length,start⟩,limit⟩ := kept
  simp only [length_append,length_singleton] at len room
  have number : s.len-before.length-part.length+1 = ((behind ++ ['\x00']).map some).length := by grind
  have both := @move_write _ _ ptr length (before.length+buf.length) (before.length+part.length)
    (s.len-before.length-part.length+1) before.length buf.text (by omega) (by omega)
    (by rw [buf.text_length]; omega)
  rw [← bind_assoc,both]
  rw [append_assoc,map_append,map_append] at start
  have replaced := @overwrite_move _ _ (buf.text.map some) _ _ _ start (by
    simp only [length_map,length_append,length_singleton,buf.text_length]
    omega)
  rw [number]
  simp only [length_map,buf.text_length] at replaced ⊢
  refine .heap ⟨⟨_,rfl,?_,?_⟩,limit⟩ ?_
  · have inner := @overwrite_length _ cells ((cells.drop (before.length+part.length)).take (behind ++ ['\x00']).length) (before.length+buf.length) (by
        simp only [length_append,length_singleton,length_take,length_drop]
        omega)
    rw [overwrite_length (by rw [length_map,buf.text_length,inner]; omega),inner]
    exact length
  · grind
  · simp only [length_append,buf.text_length]
    omega
theorem replace_inside (holds : HoldsText str content) (inside : seg_start < content.length)
    (fits : content.length+buf.length+1-min seg_len (content.length-seg_start) < SIZE_MOD) :
    Safe (te_string_replace_buf page str seg_start seg_len buf) fun s => HoldsText s (replaceText content seg_start seg_len buf.text) := by
  have len := holds.len
  have small := holds.small
  have numbers : PTRDIFF_MAX+PTRDIFF_MAX < SIZE_MOD ∧ PTRDIFF_MAX < SIZE_MAX := by decide
  -- the length of the segment within the string
  have segment : (if str.len < seg_len ∨ str.len < (seg_start+seg_len)%SIZE_MOD then str.len-seg_start else seg_len) =
      min seg_len (content.length-seg_start) := by
    rw [len]
    split_ifs with beyond
    · grind [SIZE_MOD]
    · rw [not_or] at beyond
      rw [mod_eq_of_lt (by omega)] at beyond
      omega
  rw [te_string_replace_buf,if_neg (show seg_start ≠ SIZE_MAX by omega),if_neg (show ¬ str.len ≤ seg_start by omega),
    replaceText,if_neg (show ¬ content.length ≤ seg_start by omega),segment]
  have first : (content.take seg_start).length = seg_start := by
    rw [length_take]
    omega
  have second : ((content.drop seg_start).take seg_len).length = min seg_len (content.length-seg_start) := by
    rw [length_take,length_drop]
  have parts : content = content.take seg_start ++ (content.drop seg_start).take seg_len ++ content.drop (seg_start+seg_len) := by simp
  have replaced := @replaceSegment_holds page _ _ _ _ buf (parts ▸ holds) (by rw [← parts]; rintro rfl; simp at inside)
    (by rw [second]; omega)
  rwa [first,second] at replaced
/-- Segments behind the end are appended, those within the string replaced. -/
theorem replace_holds (holds : HoldsText str content) (fits : ReplaceFits str (segStart content.length seg_start seg_len) seg_len buf.length) :
    Safe (te_string_replace_buf page str seg_start seg_len buf) fun s =>
      HoldsText s (replaceText content (segStart content.length seg_start seg_len) seg_len buf.text) := by
  have len := holds.len
  have auto : (if seg_start = SIZE_MAX then (if seg_len < str.len then str.len-seg_len else 0) else seg_start) =
      segStart content.length seg_start seg_len := by
    rw [segStart,len]
    split_ifs <;> omega
  by_cases inside : segStart content.length seg_start seg_len < content.length
  · rw [ReplaceFits,if_neg (by omega),len] at fits
    have same := @replace_inside page _ _ _ _ _ holds inside fits
    rw [te_string_replace_buf] at same ⊢
    rw [if_neg (show segStart content.length seg_start seg_len ≠ SIZE_MAX by
      have small := holds.small
      have numbers : PTRDIFF_MAX < SIZE_MAX := by decide
      omega)] at same
    rw [auto]
    exact same
  · rw [ReplaceFits,if_pos (by omega),len] at fits
    rw [te_string_replace_buf,auto,if_pos (by omega),replaceText,if_pos (by omega),len]
    generalize segStart content.length seg_start seg_len = start at fits inside ⊢
    rcases Nat.eq_or_lt_of_le (Nat.le_of_not_lt inside) with rfl | beyond
    · -- nothing is filled up
      rw [Nat.sub_self,List.replicate_zero,append_nil]
      exact append_buf_holds holds fun some' => (fits.2 some').2 rfl
    · refine Safe.bind (@append_buf_holds _ _ _ (.zeros (start-content.length)) holds fun _ => ?_) fun s filled => ?_
      · have reaches := fits.1 beyond
        rwa [show content.length+(Source.zeros (start-content.length)).length+1 = start+1 by simp only [Source.length]; omega]
      · have length : (content ++ replicate (start-content.length) '\x00').length = start := by
          rw [length_append,length_replicate]
          omega
        refine append_buf_holds filled fun some' => ⟨by rw [length]; exact (fits.2 some').1,fun ptr => ?_⟩
        have heap := filled.of_some fun empty => by
          have nothing : start = 0 := length.symm.trans (congrArg List.length empty)
          omega
        obtain ⟨cells,own,_⟩ := heap.cells
        cases ptr.symm.trans own
/-- Nothing is stored when a segment is deleted. -/
theorem delete_fits (holds : HoldsText str content) (seg_len : Nat) (inside : seg_start ≤ content.length) :
    ReplaceFits str seg_start seg_len (Source.zeros 0).length := by
  have len := holds.len
  have small := holds.small
  have numbers : PTRDIFF_MAX+1 < SIZE_MOD := by decide
  rw [ReplaceFits,Source.length]
  split_ifs with here
  · exact ⟨fun beyond => by omega,fun more => absurd rfl more⟩
  · omega
theorem cut_holds (len : Nat) (holds : HoldsText str content) :
    Safe (te_string_cut page str len) fun s => HoldsText s (content.take (content.length-len)) := by
  have start : segStart content.length SIZE_MAX len = content.length-len := if_pos rfl
  have removed := @replace_holds page _ _ (.zeros 0) SIZE_MAX len holds
    (by rw [start]; exact delete_fits holds len (Nat.sub_le _ _))
  refine removed.mono fun s holds => ?_
  rw [start,replaceText] at holds
  split_ifs at holds with here
  · rw [take_of_length_le here]
    simpa [Source.text,show content.length-len-content.length = 0 by omega] using holds
  · rw [drop_of_length_le (by omega)] at holds
    simpa [Source.text] using holds
theorem cut_beginning_holds (len : Nat) (holds : HoldsText str content) :
    Safe (te_string_cut_beginning page str len) fun s => HoldsText s (content.drop len) := by
  have start : segStart content.length 0 len = 0 := if_neg (by decide)
  have removed := @replace_holds page _ _ (.zeros 0) 0 len holds
    (by rw [start]; exact delete_fits holds len (Nat.zero_le _))
  refine removed.mono fun s holds => ?_
  rw [start,replaceText] at holds
  split_ifs at holds with here
  · rw [drop_of_length_le (by omega)]
    obtain rfl := length_eq_zero_iff.mp (le_zero.mp here)
    simpa [Source.text] using holds
  · simpa [Source.text] using holds

end

end TestEnvironment.Tools
