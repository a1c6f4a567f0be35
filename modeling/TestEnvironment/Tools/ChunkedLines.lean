import TestEnvironment.Lib.Pieces
import TestEnvironment.Tools.TeStringRuns
import TestEnvironment.Tools.TeStringSpace

/-!
`te_string_process_lines` on a text that comes in chunks, as `te_tee` reads it: the callback
gets the lines of the whole text.
-/
namespace TestEnvironment.Tools
open Lib

section
variable {page : Page} {σ : Type} {buffer : TeString} {content line behind : CStr} {complete_lines : Bool}
  {callback : CStr → σ → Nat × σ} {handler : CStr → σ → σ} {user_data : σ}

/-- A callback that accepts every line. -/
def accepting (handler : CStr → σ → σ) (line : CStr) (user_data : σ) : Nat × σ := (0,handler line user_data)
/-- The lines of a text; what stands behind the last newline is one, unless it is empty. -/
def textLines (text : CStr) : List CStr := allPieces '\n' stripCr text
def passLines (handler : CStr → σ → σ) (lines : List CStr) (user_data : σ) : σ :=
  lines.foldl (fun user_data line => handler line user_data) user_data
/-- The lines that a call takes from the buffer. -/
def takenLines (complete_lines : Bool) (content : CStr) : List CStr :=
  if complete_lines then (pieces '\n' stripCr [] content).1 else textLines content
/-- What a call leaves in the buffer. -/
def leftText (complete_lines : Bool) (content : CStr) : CStr := if complete_lines then (pieces '\n' stripCr [] content).2 else []

theorem taken_line (plain : '\n' ∉ line) (behind : CStr) :
    takenLines complete_lines (line ++ '\n' :: behind) = stripCr line :: takenLines complete_lines behind ∧
      leftText complete_lines (line ++ '\n' :: behind) = leftText complete_lines behind := by
  grind [pieces_stop,takenLines,leftText,textLines,allPieces]
theorem taken_rest (plain : '\n' ∉ line) (some' : line ≠ []) :
    takenLines true line = [] ∧ leftText true line = line ∧ takenLines false line = [stripCr line] ∧ leftText false line = [] := by
  grind [pieces_plain,takenLines,leftText,textLines,allPieces]

/-- The call has passed the lines it takes, in order, and kept the rest. -/
def Took (complete_lines : Bool) (handler : CStr → σ → σ) (content : CStr) (user_data : σ) (r : TeString × Nat × σ) : Prop :=
  HoldsText r.1 (leftText complete_lines content) ∧ Fresh r.1 ∧ r.2.1 = 0 ∧
    r.2.2 = passLines handler (takenLines complete_lines content) user_data

theorem endLine_lives (line_len : Nat) : endLine buffer line_len ≠ .error .fatal := by
  have reads (s : TeString) (off : Nat) : s.read off ≠ .error .fatal := by
    rw [TeString.read]
    repeat' split
    all_goals simp
  rw [endLine]
  refine bind_lives (write_lives _) fun s _ => ?_
  split_ifs
  · refine bind_lives (reads _ _) fun c _ => ?_
    split_ifs
    · exact write_lives _
    · simp
  · simp
theorem endLine_fresh (line_len : Nat) (fresh : Fresh buffer) : Leaves (endLine buffer line_len) Fresh := by
  refine (write_fresh fresh).bind fun s fresh => ?_
  split_ifs
  · refine Leaves.bind (P := fun _ => True) (fun _ _ => trivial) fun c _ => ?_
    split_ifs
    · exact write_fresh fresh
    · exact .ok fresh
  · exact .ok fresh
theorem handleLine_succeeds {x : Char} (heap : Heap buffer (line ++ x :: behind)) (len : buffer.len+1 = (line ++ x :: behind).length)
    (last : behind = [] ∨ behind.getLast? = some '\x00') (plain : '\x00' ∉ line) (fresh : Fresh buffer) :
    Succeeds True (handleLine page callback buffer line.length user_data) fun r =>
      HoldsText r.1 behind.dropLast ∧ Fresh r.1 ∧ r.2 = callback (stripCr line) user_data := by
  have ended := (Succeeds.of_safe (endLine_text heap len last plain) fun _ : True => endLine_lives _).and (endLine_fresh _ fresh)
  refine ended.bind fun s ⟨⟨seen,text,holds,rest⟩,fresh'⟩ => ?_
  rw [seen]
  show Succeeds True (te_string_cut_beginning page s (line.length+1) >>= fun buffer => .ok (buffer,callback (stripCr line) user_data)) _
  have removed := (@cut_beginning_succeeds page _ _ (line.length+1) holds).and (cut_beginning_fresh _ fresh')
  exact removed.bind fun s2 ⟨cut,fresh2⟩ => ⟨rest ▸ cut,fresh2,rfl⟩
/-- The loop passes the lines it takes, in order. -/
theorem processLoop_succeeds (fuel : Nat) (holds : HoldsText buffer content) (plain : '\x00' ∉ content) (fresh : Fresh buffer) (enough : content.length ≤ fuel) :
    Succeeds True (processLoop page complete_lines (accepting handler) fuel buffer user_data)
      (Took complete_lines handler content user_data) := by
  induction fuel generalizing buffer content user_data with
  | zero =>
    obtain rfl := length_eq_zero_iff.mp (le_zero.mp enough)
    cases complete_lines <;> exact ⟨holds,fresh,rfl,rfl⟩
  | succ fuel ih =>
    rw [processLoop]
    by_cases empty : content = []
    · subst empty
      rw [if_pos (show buffer.len = 0 by rw [holds.len]; rfl)]
      cases complete_lines <;> exact ⟨holds,fresh,rfl,rfl⟩
    · have heap := holds.of_some empty
      have whole : content.takeWhile (· ≠ '\x00') = content := by grind [List.takeWhile_eq_self_iff]
      rw [if_neg (by rw [holds.len]; simpa using empty),value_seen heap,whole]
      show Succeeds True (buffer.read (content.takeWhile (· ≠ '\n')).length >>= _) _
      rcases takeWhile_stops '\n' content with ⟨all,absent⟩ | ⟨rest,split⟩
      · -- the last line, which has no newline
        obtain ⟨noLines,kept,lastLine,nothing⟩ := taken_rest absent empty
        rw [all,heap.read (c := '\x00') (by simp)]
        cases complete_lines with
        | true => exact ⟨kept.symm ▸ holds,fresh,rfl,by rw [noLines]; rfl⟩
        | false =>
          have handled := @handleLine_succeeds page _ _ _ _ (accepting handler) user_data _ heap
            (by rw [holds.len]; simp) (.inl rfl) plain fresh
          refine handled.bind fun r done => ?_
          obtain ⟨s,rc,user⟩ := r
          obtain ⟨left,fresh',called⟩ := done
          obtain ⟨rfl,rfl⟩ : rc = 0 ∧ user = handler (stripCr content) user_data := by simpa [accepting] using called
          refine (ih left not_mem_nil fresh' (Nat.zero_le _)).mono fun r done => ?_
          obtain ⟨text,fresh2,status,passed⟩ := done
          refine ⟨by rw [nothing]; exact text,fresh2,status,?_⟩
          rw [passed,lastLine]
          rfl
      · have absent : '\n' ∉ content.takeWhile (· ≠ '\n') := fun member => by simpa using List.mem_takeWhile_imp member
        generalize content.takeWhile (· ≠ '\n') = line at split absent ⊢
        subst split
        obtain ⟨taken,left'⟩ := @taken_line _ complete_lines absent rest
        rw [append_assoc,cons_append] at heap
        rw [heap.read (c := '\n') (by simp)]
        have clean : '\x00' ∉ line ∧ '\x00' ∉ rest := by simpa using plain
        have handled := @handleLine_succeeds page _ _ _ _ (accepting handler) user_data _ heap
          (by rw [holds.len]; simp; omega) (.inr (by simp)) clean.1 fresh
        refine handled.bind fun r done => ?_
        obtain ⟨s,rc,user⟩ := r
        obtain ⟨left,fresh',called⟩ := done
        obtain ⟨rfl,rfl⟩ : rc = 0 ∧ user = handler (stripCr line) user_data := by simpa [accepting] using called
        rw [List.dropLast_concat] at left
        rw [length_append,length_cons] at enough
        refine (ih left clean.2 fresh' (by omega)).mono fun r done => ?_
        obtain ⟨text,fresh2,status,passed⟩ := done
        refine ⟨by rw [left']; exact text,fresh2,status,?_⟩
        rw [passed,taken]
        rfl
theorem process_lines_succeeds (holds : HoldsText buffer content) (plain : '\x00' ∉ content) (fresh : Fresh buffer) :
    Succeeds True (te_string_process_lines page buffer complete_lines (accepting handler) user_data)
      (Took complete_lines handler content user_data) :=
  processLoop_succeeds buffer.len holds plain fresh (le_of_eq holds.len.symm)
end

section
variable {page : Page} {σ : Type} {buffer : TeString} {content : CStr} {handler : CStr → σ → σ} {user_data : σ}

/-- The chunks are appended one by one with the complete lines taken after each, and the rest at the end. -/
def processChunks (page : Page) (handler : CStr → σ → σ) : List CStr → TeString → σ → Except Stop (TeString × Nat × σ)
  | [], buffer, user_data => te_string_process_lines page buffer false (accepting handler) user_data
  | chunk :: chunks, buffer, user_data => do
    let buffer ← te_string_append_buf page buffer (.bytes chunk)
    let (buffer,rc,user_data) ← te_string_process_lines page buffer true (accepting handler) user_data
    if rc = 0 then processChunks page handler chunks buffer user_data else .ok (buffer,rc,user_data)
/-- The whole text in one chunk, all lines taken at once. -/
def processWhole (page : Page) (handler : CStr → σ → σ) (text : CStr) (buffer : TeString) (user_data : σ) : Except Stop (TeString × Nat × σ) := do
  let buffer ← te_string_append_buf page buffer (.bytes text)
  te_string_process_lines page buffer false (accepting handler) user_data
/-- The buffer is empty and the status 0 after all lines of the text have been passed. -/
def PassedAll (handler : CStr → σ → σ) (text : CStr) (user_data : σ) (r : TeString × Nat × σ) : Prop :=
  HoldsText r.1 [] ∧ r.2.1 = 0 ∧ r.2.2 = passLines handler (textLines text) user_data

theorem textLines_append (before behind : CStr) :
    textLines (before ++ behind) = (pieces '\n' stripCr [] before).1 ++ textLines ((pieces '\n' stripCr [] before).2 ++ behind) := by
  grind [pieces_rest,pieces_append,pieces_left,textLines,allPieces]
theorem processChunks_succeeds (chunks : List CStr) (holds : HoldsText buffer content) (plain : '\x00' ∉ content) (fresh : Fresh buffer)
    (clean : ∀ chunk ∈ chunks, '\x00' ∉ chunk ∧ chunk.length ≤ PTRDIFF_MAX) :
    Succeeds (Ample (content.length+chunks.flatten.length+1)) (processChunks page handler chunks buffer user_data)
      (PassedAll handler (content ++ chunks.flatten) user_data) := by
  induction chunks generalizing buffer content user_data with
  | nil =>
    rw [List.flatten_nil,append_nil]
    exact ((process_lines_succeeds holds plain fresh).mono fun r ⟨text,_,status,passed⟩ => ⟨text,status,passed⟩).weaken fun _ => trivial
  | cons chunk chunks ih =>
    obtain ⟨⟨zeroFree,object⟩,later⟩ := forall_mem_cons.mp clean
    have plain1 : '\x00' ∉ content ++ chunk := by simp [plain,zeroFree]
    have appended := (@append_buf_succeeds page _ _ (.bytes chunk) holds fresh object).and (append_buf_fresh fresh)
    rw [processChunks,List.flatten_cons,length_append]
    have enough : content.length+chunk.length+1 ≤ content.length+(chunk.length+chunks.flatten.length)+1 := by omega
    refine (appended.weaken fun ample => ample.mono enough).bind fun s ⟨holds1,fresh1⟩ => ?_
    have processed := @process_lines_succeeds page _ _ _ true handler user_data holds1 plain1 fresh1
    refine (processed.weaken fun _ => trivial).bind fun r ⟨text,fresh2,status,passed⟩ => ?_
    obtain ⟨s2,rc,user⟩ := r
    obtain rfl : rc = 0 := status
    -- what is left has no zeros and is no longer than what was there
    have plain2 : '\x00' ∉ (pieces '\n' stripCr [] (content ++ chunk)).2 := fun member => plain1 (by simpa using pieces_subset [] _ member)
    have shorter := @pieces_length _ _ _ '\n' stripCr [] (content ++ chunk)
    rw [length_nil,Nat.zero_add,length_append] at shorter
    have left : (pieces '\n' stripCr [] (content ++ chunk)).2.length+chunks.flatten.length+1 ≤
        content.length+(chunk.length+chunks.flatten.length)+1 := by omega
    refine ((ih text plain2 fresh2 later).weaken fun ample => ample.mono left).mono fun r ⟨empty,zero,all⟩ => ⟨empty,zero,?_⟩
    have user' : user = passLines handler (takenLines true (content ++ chunk)) user_data := passed
    rw [all,user',← append_assoc,textLines_append (content ++ chunk)]
    exact (foldl_append ..).symm

/-- However a text without zeros is cut into chunks, the callback gets the lines that it gets when the whole
    text is processed at once, in order, and the buffer is empty at the end. -/
theorem chunked_lines_whole (chunks : List CStr) (empty : HoldsText buffer []) (fresh : Fresh buffer)
    (clean : ∀ chunk ∈ chunks, '\x00' ∉ chunk ∧ chunk.length ≤ PTRDIFF_MAX) :
    Succeeds (Ample (chunks.flatten.length+1)) (processChunks page handler chunks buffer user_data)
      (PassedAll handler chunks.flatten user_data) ∧
    (chunks.flatten.length ≤ PTRDIFF_MAX → Succeeds (Ample (chunks.flatten.length+1)) (processWhole page handler chunks.flatten buffer user_data)
      (PassedAll handler chunks.flatten user_data)) := by
  constructor
  · have run := @processChunks_succeeds page _ _ _ handler user_data chunks empty not_mem_nil fresh clean
    rwa [length_nil,Nat.zero_add,nil_append] at run
  · intro object
    have plain : '\x00' ∉ chunks.flatten := by
      rw [List.mem_flatten]
      rintro ⟨chunk,member,zero⟩
      exact (clean chunk member).1 zero
    have appended := (@append_buf_succeeds page _ _ (.bytes chunks.flatten) empty fresh object).and (append_buf_fresh fresh)
    rw [length_nil,Nat.zero_add] at appended
    refine appended.bind fun s ⟨holds,fresh1⟩ => ?_
    exact ((process_lines_succeeds holds plain fresh1).weaken fun _ => trivial).mono fun r ⟨text,_,status,passed⟩ => ⟨text,status,passed⟩
theorem chunked_lines_whole_cr :
    Succeeds (Ample 8) (processChunks ⟨4096,by decide,by decide⟩ (fun line seen => seen ++ [line])
      [['a','\r'],['\n','b'],[],['c','\n','\r']] (TE_STRING_INIT_RESERVE 0) [])
      (PassedAll (fun line seen => seen ++ [line]) ['a','\r','\n','b','c','\n','\r'] []) :=
  (chunked_lines_whole [['a','\r'],['\n','b'],[],['c','\n','\r']] (.null rfl rfl rfl) (fun _ => rfl) (by decide)).1
/-- The carriage return is stripped though the newline comes in another chunk. -/
example : textLines ['a','\r','\n','b','c','\n','\r'] = [['a'],['b','c'],[]] := by decide
end
end TestEnvironment.Tools
