import TestEnvironment.Rgt.LogSplit

/-!
Recovering undoes splitting: the current block is contiguous in the log and at the end of its
fragment, so that the lines of `recover_list` tile the log.
-/
namespace TestEnvironment.Rgt
open Lib

section
variable {s t : CStr} {c : Char} {n : Nat}

theorem takeWhile_stopped {p : Char → Bool} (all : ∀ c ∈ s, p c = true) (stop : p c = false) :
    (s ++ c :: t).takeWhile p = s ∧ (s ++ c :: t).dropWhile p = c :: t := by
  induction s with
  | nil => exact ⟨by rw [nil_append,List.takeWhile_cons_of_neg (by rw [stop]; decide)],
      by rw [nil_append,dropWhile_cons_of_neg (by rw [stop]; decide)]⟩
  | cons d s ih => grind [List.takeWhile_cons_of_pos,dropWhile_cons_of_pos]
/-- A number is read back up to the next character that is no digit. -/
theorem scanNumber_text (n : Nat) (stop : isdigit c = false) : scanNumber (natText n ++ c :: t) = some (n,c :: t) := by
  obtain ⟨taken,dropped⟩ := takeWhile_stopped (t := t) (natText_digits n) stop
  have start : (natText n ++ c :: t).dropWhile isspace = natText n ++ c :: t := by
    rcases digits : natText n with _ | ⟨d,ds⟩
    · exact absurd digits (natText_nonempty n)
    · grind [digit_not_space,natText_digits,dropWhile_cons_of_neg]
  rw [scanNumber]
  simp only [start,taken,dropped,if_neg (natText_nonempty n),natText_number]
theorem scanNumber_space (s : CStr) : scanNumber (' ' :: s) = scanNumber s := by
  rw [scanNumber,scanNumber,dropWhile_cons_of_pos (by decide)]
/-- A name of a file, without blanks. -/
def Word (s : CStr) : Prop := s ≠ [] ∧ ∀ c ∈ s, isspace c = false
theorem scanWord_text (word : Word s) (space : isspace c = true) : scanWord (s ++ c :: t) = some (s,c :: t) := by
  obtain ⟨some_there,plain⟩ := word
  obtain ⟨taken,dropped⟩ := takeWhile_stopped (p := fun c => !isspace c) (t := t) (fun c member => by rw [plain c member]; rfl)
    (by rw [space]; rfl)
  have start : (s ++ c :: t).dropWhile isspace = s ++ c :: t := by
    rcases s with _ | ⟨d,ds⟩
    · exact absurd rfl some_there
    · simp [plain]
  rw [scanWord]
  simp only [start,taken,dropped,if_neg some_there]
theorem scanWord_space (s : CStr) : scanWord (' ' :: s) = scanWord s := by
  rw [scanWord,scanWord,dropWhile_cons_of_pos (by decide)]
/-- What is written about a block is read back, whatever was read before. -/
theorem scanLine_recoverLine {block : Block} (word : Word block.cur_block_frag_name) (old : Block) :
    scanLine old (SplitState.recoverLine block) = some block := by
  rw [SplitState.recoverLine,scanLine]
  simp only [append_assoc,cons_append]
  rw [scanNumber_text _ (by decide)]
  simp only [map_some]
  rw [scanNumber_space,scanNumber_text _ (by decide)]
  simp only
  rw [scanWord_space,scanWord_text word (by decide)]
  simp only
  rw [scanNumber_space,scanNumber_text _ (by decide)]
end

section
variable {a b : Int} {t t' : FragmentType} {k k' : Nat}

theorem natText_injective {m n : Nat} (same : natText m = natText n) : m = n := by
  rw [← natText_number m,same,natText_number]
theorem intText_plain {c : Char} (plain : isdigit c = false) (minus : c ≠ '-') (z : Int) : c ∉ intText z := by grind [natText_plain,intText]
theorem intText_injective {x y : Int} (same : intText x = intText y) : x = y := by
  rw [intText,intText] at same
  split_ifs at same with negative negative' negative'
  · have size := natText_injective (cons.inj same).2
    omega
  · exact absurd (by rw [← same]; exact mem_cons_self) (natText_plain (n := y.natAbs) (c := '-') (by decide))
  · exact absurd (by rw [same]; exact mem_cons_self) (natText_plain (n := x.natAbs) (c := '-') (by decide))
  · have size := natText_injective same
    omega
/-- The name of a fragment tells its node and its type. -/
theorem fragName_injective (same : SplitState.fragName a t k = SplitState.fragName b t' k') : a = b ∧ t = t' := by
  rw [SplitState.fragName.eq_def,SplitState.fragName.eq_def,append_assoc,append_assoc] at same
  have first := congrArg (strchr '_') same
  have split : ∀ (z : Int) (u : CStr), strchr '_' (intText z ++ ("_frag_".toList ++ u)) = some (intText z,"frag_".toList ++ u) := by
    intro z u
    exact strchr_append (intText_plain (by decide) (by decide) z) _
  rw [split,split] at first
  obtain ⟨ids,rest⟩ := of_pair first
  refine ⟨intText_injective ids,?_⟩
  have suffix := append_cancel_left rest
  cases t <;> cases t' <;> first | rfl | exact absurd (cons.inj suffix).1 (by decide)
theorem all_plain {s : CStr} {c : Char} (plain : (s.all fun c => !isspace c) = true) (member : c ∈ s) : isspace c = false := by grind
theorem fragName_word (a : Int) (t : FragmentType) (k : Nat) : Word (SplitState.fragName a t k) := by
  have plain : ∀ c ∈ natText k, isspace c = false := fun c member => digit_not_space (natText_digits k c member)
  rw [SplitState.fragName.eq_def,Word]
  refine ⟨by simp,?_⟩
  intro c member
  rw [append_assoc,mem_append] at member
  obtain number | member := member
  · rw [intText] at number
    split_ifs at number
    · obtain rfl | digit := mem_cons.mp number
      · decide
      · exact digit_not_space (natText_digits _ c digit)
    · exact digit_not_space (natText_digits _ c number)
  obtain front | member := mem_append.mp member
  · exact all_plain (s := "_frag_".toList) (by decide) front
  cases t with
  | FRAG_START =>
    exact all_plain (s := "start".toList) (by decide) member
  | FRAG_END =>
    exact all_plain (s := "end".toList) (by decide) member
  | FRAG_AFTER =>
    exact all_plain (s := "after".toList) (by decide) member
  | FRAG_INNER =>
    obtain front | digits := mem_append.mp member
    · exact all_plain (s := "inner_".toList) (by decide) front
    · exact plain c digits
end

section
variable {raw : Bytes} {files files' : Files} {block : Block} {blocks : List Block}

/-- The bytes of the log that a block stands for are in its fragment. -/
structure Block.Faithful (raw : Bytes) (files : Files) (block : Block) : Prop where
  word : Word block.cur_block_frag_name
  inside : block.cur_block_offset+block.cur_block_length ≤ raw.length
  bytes : ∃ file, files block.cur_block_frag_name = some file ∧
    block.cur_block_frag_offset+block.cur_block_length ≤ file.length ∧
    (file.drop block.cur_block_frag_offset).take block.cur_block_length =
      (raw.drop block.cur_block_offset).take block.cur_block_length
/-- Files only get longer. -/
def Longer (files files' : Files) : Prop := ∀ name file, files name = some file → ∃ more, files' name = some (file ++ more)
theorem Longer.refl (files : Files) : Longer files files := fun _ file here => ⟨[],by rw [append_nil]; exact here⟩
theorem Longer.append (files : Files) (name : CStr) (data : Bytes) :
    Longer files (update files name (some ((files name).getD [] ++ data))) := by
  intro other file here
  by_cases same : other = name
  · simp [← same,here]
  · exact ⟨[],by rw [update_of_ne same,here,append_nil]⟩
theorem Block.Faithful.longer (faithful : block.Faithful raw files) (longer : Longer files files') : block.Faithful raw files' := by
  obtain ⟨word,inside,file,here,within,bytes⟩ := faithful
  obtain ⟨more,here'⟩ := longer _ file here
  refine ⟨word,inside,file ++ more,here',by rw [length_append]; omega,?_⟩
  rw [← bytes,drop_append_of_le_length (by omega),take_append_of_le_length (by rw [length_drop]; omega)]

/-- The blocks cover the log from one offset to another. -/
def Tiles : Nat → List Block → Nat → Prop
  | start,[],stop => start = stop
  | start,block :: blocks,stop => block.cur_block_offset = start ∧ Tiles (start+block.cur_block_length) blocks stop
theorem Tiles.snoc {start : Nat} (tiles : Tiles start blocks block.cur_block_offset) :
    Tiles start (blocks ++ [block]) (block.cur_block_offset+block.cur_block_length) := by
  induction blocks generalizing start with
  | nil => exact ⟨tiles.symm,by rw [show start = block.cur_block_offset from tiles]; rfl⟩
  | cons first blocks ih => exact ⟨tiles.1,ih tiles.2⟩

/-- Replaying the lines of blocks that tile the log extends what is recovered. -/
theorem recoverLoop_tiles {start stop : Nat} (tiles : Tiles start blocks stop) (within : start ≤ raw.length)
    (faithful : ∀ block ∈ blocks, block.Faithful raw files) (old : Block) :
    recoverLoop files old (raw.take start) (blocks.map SplitState.recoverLine) = some (raw.take stop) := by
  induction blocks generalizing start old with
  | nil => rw [show stop = start from tiles.symm]; rfl
  | cons block blocks ih =>
    obtain ⟨here,rest⟩ := tiles
    obtain ⟨word,inside,file,there,room,bytes⟩ := faithful block mem_cons_self
    rw [map_cons,recoverLoop]
    simp only [scanLine_recoverLine word,there,bind,Option.bind]
    rw [SplitState.readAt,if_pos (.inr room),bytes]
    simp only
    have written : writeAt (raw.take start) block.cur_block_offset ((raw.drop block.cur_block_offset).take block.cur_block_length) =
        raw.take (start+block.cur_block_length) := by simp_all [take_of_length_le,take_add,writeAt]
    rw [written]
    exact ih rest (by omega) (fun other member => faithful other (mem_cons_of_mem block member)) block
end

namespace SplitState
section
variable {raw : Bytes} {s s' : SplitState} {node_id : Int} {frag_type : FragmentType} {offset length pos : Nat} {name : CStr}

/-- Nothing is written but empty files, and what a node keeps of its last closed child stays. -/
structure Quiet (s s' : SplitState) : Prop where
  files : Longer s.files s'.files
  f_recover : s'.f_recover = s.f_recover
  cur_block : s'.cur_block = s.cur_block
  last_msg_offset : s'.last_msg_offset = s.last_msg_offset
  lengths : ∀ name file, s.files name = some file → s'.files name = some file
/-- The blocks so far, the last one the current block at the end of its file: they cover the log up to `pos`. -/
structure Covers (raw : Bytes) (s : SplitState) (pos offset : Nat) (name : CStr) : Prop where
  last : s.last_msg_offset = some offset
  blocks : ∃ blocks block file, s.f_recover = blocks.map recoverLine ∧ s.cur_block = some block ∧
    Tiles 0 blocks block.cur_block_offset ∧ block.cur_block_offset+block.cur_block_length = pos ∧
    (∀ other ∈ blocks, other.Faithful raw s.files) ∧ block.Faithful raw s.files ∧ block.cur_block_frag_name = name ∧
    s.files name = some file ∧ file.length = block.cur_block_frag_offset+block.cur_block_length
/-- Between two messages: the log is covered up to `pos`. -/
inductive Settled (raw : Bytes) (s : SplitState) : Nat → Prop
  | fresh : s.cur_block = none → s.f_recover = [] → Settled raw s 0
  | covers {pos offset : Nat} {name : CStr} : Covers raw s pos offset name → offset < pos → Settled raw s pos

/-- What an append does: the name of its file, and the states before and after. -/
structure Appended (raw : Bytes) (offset length : Nat) (name : CStr) (s s' : SplitState) : Prop where
  inside : length = 0 ∨ offset+length ≤ raw.length
  files : s'.files = update s.files name (some ((s.files name).getD [] ++ (raw.drop offset).take length))
  f_recover : s'.f_recover = (s.noteBlock name ((s.files name).getD []).length offset length).f_recover
  cur_block : s'.cur_block = (s.noteBlock name ((s.files name).getD []).length offset length).cur_block
  last_msg_offset : s'.last_msg_offset = some offset
/-- Nodes keep their last closed child. -/
def SameClosed (s s' : SplitState) : Prop := ∀ id, (s'.nodes id).last_closed_child = (s.nodes id).last_closed_child

theorem SameClosed.trans {s₁ s₂ s₃ : SplitState} (first : SameClosed s₁ s₂) (second : SameClosed s₂ s₃) : SameClosed s₁ s₃ :=
  fun id => (second id).trans (first id)
theorem setNode_closed {id : Nat} {f : NodeInfo → NodeInfo} (keeps : ∀ node, (f node).last_closed_child = node.last_closed_child) :
    SameClosed s (s.setNode id f) := by
  intro other
  show (update s.nodes id (f (s.nodes id)) other).last_closed_child = _
  by_cases same : other = id
  · rw [same,update_self,keeps]
  · rw [update_of_ne same]
theorem get_node_info_cases {id : Nat} (found : s.get_node_info node_id = some (id,s')) :
    0 ≤ node_id ∧ id = node_id.toNat ∧ s' = { s with nodes_count := s'.nodes_count } := by
  rw [get_node_info] at found
  split_ifs at found with negative
  obtain ⟨rfl,rfl⟩ := of_pair found
  exact ⟨by omega,rfl,rfl⟩
theorem fragFile_cases (filed : s.fragFile node_id frag_type length = some (name,s')) :
    (∃ num, name = fragName node_id frag_type num) ∧ SameClosed s s' ∧
      s' = { s with nodes := s'.nodes, nodes_count := s'.nodes_count } := by
  rw [fragFile.eq_def] at filed
  cases frag_type with
  | FRAG_START | FRAG_END =>
    obtain ⟨rfl,rfl⟩ := of_pair filed
    exact ⟨⟨0,rfl⟩,fun _ => rfl,rfl⟩
  | FRAG_AFTER =>
    obtain ⟨⟨id,t⟩,got,found⟩ := of_bind filed
    obtain ⟨-,-,rest⟩ := get_node_info_cases got
    obtain ⟨rfl,rfl⟩ := of_pair found
    refine ⟨⟨0,rfl⟩,?_,by rw [rest]; rfl⟩
    have same : SameClosed s t := by rw [rest]; exact fun _ => rfl
    exact same.trans (setNode_closed fun _ => rfl)
  | FRAG_INNER =>
    obtain ⟨⟨id,t⟩,got,found⟩ := of_bind filed
    obtain ⟨-,-,rest⟩ := get_node_info_cases got
    obtain ⟨rfl,rfl⟩ := of_pair found
    refine ⟨⟨_,rfl⟩,?_,by rw [rest]; rfl⟩
    have same : SameClosed s t := by rw [rest]; exact fun _ => rfl
    refine same.trans ((setNode_closed fun node => ?_).trans (setNode_closed fun node => ?_))
    · split_ifs <;> rfl
    · split_ifs <;> rfl
theorem noteBlock_rest (name : CStr) (frag_end offset length : Nat) : s.noteBlock name frag_end offset length =
    { s with
      f_recover := (s.noteBlock name frag_end offset length).f_recover
      cur_block := (s.noteBlock name frag_end offset length).cur_block } := by
  rw [noteBlock]
  rcases s.cur_block with _ | block
  · rfl
  · simp only
    split_ifs <;> rfl
/-- The nodes have no part in it. -/
theorem noteBlock_nodes (nodes : Nat → NodeInfo) (count : Nat) (name : CStr) (frag_end offset length : Nat) :
    ({ s with nodes := nodes, nodes_count := count }.noteBlock name frag_end offset length).f_recover =
      (s.noteBlock name frag_end offset length).f_recover ∧
    ({ s with nodes := nodes, nodes_count := count }.noteBlock name frag_end offset length).cur_block =
      (s.noteBlock name frag_end offset length).cur_block := by
  rw [noteBlock,noteBlock]
  simp only
  rcases here : s.cur_block with _ | block
  · exact ⟨rfl,rfl⟩
  · grind
theorem append_cases (done : s.append_to_frag node_id frag_type raw offset length = some s') :
    ∃ num, Appended raw offset length (fragName node_id frag_type num) s s' ∧ SameClosed s s' := by
  obtain ⟨⟨name,t⟩,filed,rest⟩ := of_bind done
  obtain ⟨⟨num,rfl⟩,closed,same⟩ := fragFile_cases filed
  obtain ⟨data,read,result⟩ := of_bind rest
  rw [readAt] at read
  split_ifs at read with inside
  obtain rfl := some.inj read
  refine ⟨num,?_⟩
  rw [same] at result
  simp only at result
  obtain ⟨lines,block⟩ := noteBlock_nodes (s := s) t.nodes t.nodes_count (fragName node_id frag_type num)
    ((s.files (fragName node_id frag_type num)).getD []).length offset length
  rw [noteBlock_rest] at result
  obtain rfl := some.inj result
  exact ⟨⟨inside,rfl,lines,block,rfl⟩,closed⟩

/-- A slice at the end of a file grows with what is appended. -/
theorem slice_extended {file : Bytes} {from_file from_raw count more stop : Nat} (tight : file.length = from_file+count)
    (bytes : (file.drop from_file).take count = (raw.drop from_raw).take count) (next : from_raw+count = stop)
    (size : ((raw.drop stop).take more).length = more) :
    ((file ++ (raw.drop stop).take more).drop from_file).take (count+more) = (raw.drop from_raw).take (count+more) := by
  have rest : (file.drop from_file).length = count := by rw [length_drop]; omega
  have whole : file.drop from_file = (raw.drop from_raw).take count := by
    rw [← bytes]
    exact (take_of_length_le (le_of_eq rest)).symm
  have parts : (raw.drop from_raw).take (count+more) = (raw.drop from_raw).take count ++ (raw.drop stop).take more := by
    rw [take_add,drop_drop,next]
  rw [drop_append_of_le_length (by omega),whole,parts]
  refine take_of_length_le ?_
  rw [length_append,size,← whole,rest]
/-- The first append of a message extends the current block or starts the next one. -/
theorem Settled.append (settled : Settled raw s offset) (positive : 0 < length) (word : Word name)
    (appended : Appended raw offset length name s s') : Covers raw s' (offset+length) offset name := by
  have inside : offset+length ≤ raw.length := by
    obtain zero | inside := appended.inside
    · omega
    · exact inside
  have longer : Longer s.files s'.files := by
    rw [appended.files]
    exact .append s.files name _
  obtain ⟨_,files,lines,block_now,last⟩ := appended
  have here : s'.files name = some ((s.files name).getD [] ++ (raw.drop offset).take length) := by rw [files,update_self]
  have size : ((raw.drop offset).take length).length = length := by rw [length_take,length_drop]; omega
  -- a block that starts with this message
  have started : (⟨offset,length,name,((s.files name).getD []).length⟩ : Block).Faithful raw s'.files := by
    refine ⟨word,inside,_,here,by rw [length_append,size],?_⟩
    rw [drop_left]
    exact take_of_length_le (le_of_eq size)
  refine ⟨last,?_⟩
  cases settled with
  | fresh no_block no_lines =>
    rw [noteBlock,no_block] at lines block_now
    refine ⟨[],_,_,by rw [lines,no_lines]; rfl,block_now,rfl,rfl,?_,started,rfl,here,by rw [length_append,size]⟩
    intro other member
    cases member
  | @covers _ before old covers earlier =>
    obtain ⟨last_before,blocks,block,file,recovered,current,tiles,stop,all,faithful,old_name,found,tight⟩ := covers
    rw [noteBlock,current] at lines block_now
    have moved : s.last_msg_offset ≠ some offset := by grind
    simp only [if_pos moved] at lines block_now
    split_ifs at lines block_now with continues
    · obtain ⟨_,same⟩ := continues
      have is_file : s.files name = some file := by rw [same,old_name]; exact found
      refine ⟨blocks,_,_,by rw [lines,recovered],block_now,tiles,by simp only; omega,fun other member => (all other member).longer longer,
        ?_,same.symm,here,by rw [is_file,getD_some,length_append,size,tight]; simp only; omega⟩
      obtain ⟨word',inside',file',there,within,bytes⟩ := faithful
      have same_file : file' = file := some.inj (there.symm.trans (by rw [← same]; exact is_file))
      subst same_file
      refine ⟨word',by simp only; omega,_,by rw [← same]; exact here,?_,?_⟩
      · grind
      · simp only
        rw [is_file,getD_some]
        exact slice_extended tight bytes stop size
    · refine ⟨blocks ++ [block],_,_,by rw [lines,recovered,map_append]; rfl,block_now,?_,rfl,?_,started,rfl,here,
        by rw [length_append,size]⟩
      · have snoc := tiles.snoc
        rwa [stop] at snoc
      · intro other member
        obtain old' | new := mem_append.mp member
        · exact (all other old').longer longer
        · rw [mem_singleton.mp new]
          exact faithful.longer longer
/-- Further copies of the message leave the block alone: they go to other files. -/
theorem Covers.append {old : CStr} (covers : Covers raw s pos offset old) (other : name ≠ old)
    (appended : Appended raw offset length name s s') : Covers raw s' pos offset old := by
  have longer : Longer s.files s'.files := by
    rw [appended.files]
    exact .append s.files name _
  obtain ⟨_,files,lines,block_now,last⟩ := appended
  obtain ⟨last_before,blocks,block,file,recovered,current,tiles,stop,all,faithful,old_name,found,tight⟩ := covers
  rw [noteBlock,current] at lines block_now
  simp only [last_before,ne_eq,not_true_eq_false,if_false] at lines block_now
  refine ⟨last,blocks,block,file,lines.trans recovered,block_now.trans current,tiles,stop,
    fun other member => (all other member).longer longer,faithful.longer longer,old_name,?_,tight⟩
  rw [files,update_of_ne (Ne.symm other)]
  exact found
theorem Quiet.covers (quiet : Quiet s s') (covers : Covers raw s pos offset name) : Covers raw s' pos offset name := by
  obtain ⟨last,blocks,block,file,recovered,current,tiles,stop,all,faithful,named,found,tight⟩ := covers
  exact ⟨quiet.last_msg_offset.trans last,blocks,block,file,quiet.f_recover.trans recovered,quiet.cur_block.trans current,tiles,stop,
    fun other member => (all other member).longer quiet.files,faithful.longer quiet.files,named,quiet.lengths _ _ found,tight⟩
theorem Quiet.settled (quiet : Quiet s s') (settled : Settled raw s pos) : Settled raw s' pos := by
  cases settled with
  | fresh no_block no_lines => exact .fresh (quiet.cur_block.trans no_block) (quiet.f_recover.trans no_lines)
  | covers covers earlier => exact .covers (quiet.covers covers) earlier
end

section
variable {s s' s'' : SplitState} {node_id parent_id child_id : Int} {id : Nat} {due : Option Nat}

theorem Quiet.refl (s : SplitState) : Quiet s s := ⟨.refl s.files,rfl,rfl,rfl,fun _ _ here => here⟩
theorem setNode_quiet (id : Nat) (f : NodeInfo → NodeInfo) : Quiet s (s.setNode id f) := ⟨.refl s.files,rfl,rfl,rfl,fun _ _ here => here⟩
theorem Quiet.trans (first : Quiet s s') (second : Quiet s' s'') : Quiet s s'' := by
  refine ⟨fun name file here => second.files name file (first.lengths name file here),second.f_recover.trans first.f_recover,
    second.cur_block.trans first.cur_block,second.last_msg_offset.trans first.last_msg_offset,?_⟩
  intro name file here
  exact second.lengths name file (first.lengths name file here)
/-- Nodes that differ at most in what the list of leaf nodes and the counts of children need. -/
def Alike (node node' : NodeInfo) : Prop :=
  node' = { node with
    opened := node'.opened
    opened_children := node'.opened_children
    last_closed_child := node'.last_closed_child
    links := node'.links }
theorem Alike.trans {node node' node'' : NodeInfo} (first : Alike node node') (second : Alike node' node'') : Alike node node'' := by
  rw [Alike,second,first]
/-- Only the nodes change, and of them only what `Alike` leaves open. -/
structure Plain (s s' : SplitState) : Prop where
  files : s'.files = s.files
  f_recover : s'.f_recover = s.f_recover
  cur_block : s'.cur_block = s.cur_block
  last_msg_offset : s'.last_msg_offset = s.last_msg_offset
  count : s.nodes_count ≤ s'.nodes_count
  nodes : ∀ id, Alike (s.nodes id) (s'.nodes id)
theorem Plain.refl (s : SplitState) : Plain s s := ⟨rfl,rfl,rfl,rfl,le_rfl,fun _ => rfl⟩
theorem Plain.trans (first : Plain s s') (second : Plain s' s'') : Plain s s'' :=
  ⟨second.files.trans first.files,second.f_recover.trans first.f_recover,second.cur_block.trans first.cur_block,
    second.last_msg_offset.trans first.last_msg_offset,first.count.trans second.count,fun id => (first.nodes id).trans (second.nodes id)⟩
theorem Plain.quiet (plain : Plain s s') : Quiet s s' := by
  refine ⟨?_,plain.f_recover,plain.cur_block,plain.last_msg_offset,?_⟩
  · rw [plain.files]
    exact .refl s.files
  · intro name file here
    rw [plain.files,here]
theorem setNode_plain {f : NodeInfo → NodeInfo} (alike : ∀ node, Alike node (f node)) : Plain s (s.setNode id f) := by
  refine ⟨rfl,rfl,rfl,rfl,le_rfl,?_⟩
  intro other
  show Alike (s.nodes other) (update s.nodes id (f (s.nodes id)) other)
  by_cases same : other = id
  · rw [same,update_self]
    exact alike _
  · rw [update_of_ne same]
    rfl
theorem Plain.leaf_nodes (plain : Plain s s') (leaf_nodes : Option Nat) : Plain s { s' with leaf_nodes := leaf_nodes } :=
  ⟨plain.files,plain.f_recover,plain.cur_block,plain.last_msg_offset,plain.count,plain.nodes⟩
theorem growCount_ge (id fuel count : Nat) : count ≤ growCount id fuel count := by
  induction fuel generalizing count with
  | zero => exact le_rfl
  | succ fuel ih => grind [growCount]
theorem growCount_has (id fuel count : Nat) (enough : id < count+fuel) : id < growCount id fuel count := by
  induction fuel generalizing count with
  | zero => exact enough
  | succ fuel ih =>
    rw [growCount]
    split_ifs with short
    · exact ih _ (by omega)
    · omega
theorem get_node_info_plain (found : s.get_node_info node_id = some (id,s')) : Plain s s' ∧ SameClosed s s' := by
  rw [get_node_info] at found
  split_ifs at found
  obtain ⟨-,rfl⟩ := of_pair found
  exact ⟨⟨rfl,rfl,rfl,rfl,growCount_ge _ _ _,fun _ => rfl⟩,fun _ => rfl⟩
theorem setLinks_plain (id : Nat) (f : Links → Links) : Plain s (s.setLinks id f) ∧ SameClosed s (s.setLinks id f) :=
  ⟨setNode_plain (f := fun node => { node with links := node.links.map f }) fun _ => rfl,setNode_closed fun _ => rfl⟩
theorem insert_plain (id : Nat) : Plain s (s.LIST_INSERT_HEAD id) ∧ SameClosed s (s.LIST_INSERT_HEAD id) := by
  have put : ∀ (t : SplitState) (links : Links),
      Plain t { t.setNode id fun node => { node with links := some links } with leaf_nodes := some id } ∧
      SameClosed t { t.setNode id fun node => { node with links := some links } with leaf_nodes := some id } := by
    intro t links
    have closed : SameClosed t (t.setNode id fun node => { node with links := some links }) := setNode_closed fun _ => rfl
    have plain : Plain t (t.setNode id fun node => { node with links := some links }) := setNode_plain fun _ => rfl
    exact ⟨plain.leaf_nodes _,closed⟩
  rw [LIST_INSERT_HEAD]
  rcases s.leaf_nodes with _ | first
  · exact put s _
  · obtain ⟨plain,closed⟩ := setLinks_plain (s := s) first fun links => { links with le_prev := .node id }
    exact ⟨plain.trans (put _ _).1,closed.trans (put _ _).2⟩
theorem remove_plain (removed : s.LIST_REMOVE id = some s') : Plain s s' ∧ SameClosed s s' := by
  obtain ⟨⟨le_next,le_prev⟩,-,rfl⟩ := of_map removed
  rcases le_next with _ | next
  · rcases le_prev with _ | before
    · exact ⟨(Plain.refl s).leaf_nodes _,fun _ => rfl⟩
    · exact setLinks_plain before _
  · rcases le_prev with _ | before
    · obtain ⟨plain,closed⟩ := setLinks_plain (s := s) next fun after => { after with le_prev := .head }
      exact ⟨plain.leaf_nodes _,closed⟩
    · obtain ⟨plain,closed⟩ := setLinks_plain (s := s) next fun after => { after with le_prev := .node before }
      obtain ⟨plain',closed'⟩ := setLinks_plain (s := s.setLinks next fun after => { after with le_prev := .node before }) before
        fun link => { link with le_next := some next }
      exact ⟨plain.trans plain',closed.trans closed'⟩
theorem openChild_plain (opened : s.openChild id = some s') : Plain s s' ∧ SameClosed s s' := by
  obtain ⟨t,removed,rfl⟩ := of_map opened
  have first : Plain s t ∧ SameClosed s t := by
    split_ifs at removed
    · exact remove_plain removed
    · obtain rfl := some.inj removed
      exact ⟨.refl s,fun _ => rfl⟩
  exact ⟨first.1.trans (setNode_plain fun _ => rfl),first.2.trans (setNode_closed fun _ => rfl)⟩
/-- The parent's last closed child is the one that ends. -/
theorem closeChild_plain (id : Nat) (child_id : Int) : Plain s (s.closeChild id child_id) ∧
    ∀ other, ((s.closeChild id child_id).nodes other).last_closed_child =
      if other = id then child_id else (s.nodes other).last_closed_child := by
  have first : ∀ t, t = (s.setNode id fun node => { node with opened_children := node.opened_children-1, last_closed_child := child_id }) →
      Plain s t ∧ ∀ other, (t.nodes other).last_closed_child = if other = id then child_id else (s.nodes other).last_closed_child := by
    rintro t rfl
    refine ⟨setNode_plain fun _ => rfl,?_⟩
    intro other
    show (update s.nodes id _ other).last_closed_child = _
    by_cases same : other = id
    · rw [same,update_self,if_pos rfl]
    · rw [update_of_ne same,if_neg same]
  rw [closeChild]
  generalize known : (s.setNode id fun node => { node with opened_children := node.opened_children-1, last_closed_child := child_id }) = t
  obtain ⟨plain,closed⟩ := first t known.symm
  show Plain s (if (t.nodes id).opened_children = 0 then t.LIST_INSERT_HEAD id else t) ∧ ∀ other,
    ((if (t.nodes id).opened_children = 0 then t.LIST_INSERT_HEAD id else t).nodes other).last_closed_child = _
  split_ifs
  · obtain ⟨plain',closed'⟩ := insert_plain (s := t) id
    exact ⟨plain.trans plain',fun other => (closed' other).trans (closed other)⟩
  · exact ⟨plain,closed⟩

/-- The last closed children of the nodes are among the pairs of `P`. -/
def ClosedIn (P : Int → Int → Prop) (s : SplitState) : Prop :=
  ∀ id : Nat, 0 ≤ (s.nodes id).last_closed_child → P id (s.nodes id).last_closed_child
variable {P : Int → Int → Prop}
theorem ClosedIn.same (closed : ClosedIn P s) (same : SameClosed s s') : ClosedIn P s' := by
  intro id some_child
  rw [same id] at some_child ⊢
  exact closed id some_child
theorem update_children_open (updated : s.update_children_state parent_id child_id true = some s') : Plain s s' ∧ SameClosed s s' := by
  rw [update_children_state] at updated
  split_ifs at updated
  · obtain rfl := some.inj updated
    exact ⟨.refl s,fun _ => rfl⟩
  · obtain rfl := some.inj updated
    exact ⟨.refl s,fun _ => rfl⟩
  · obtain ⟨⟨id,t⟩,got,rest⟩ := of_bind updated
    obtain ⟨plain,closed⟩ := get_node_info_plain got
    obtain ⟨u,opened,result⟩ := of_bind rest
    obtain ⟨plain',closed'⟩ := openChild_plain opened
    split_ifs at result
    obtain rfl := some.inj result
    exact ⟨plain.trans plain',closed.trans closed'⟩
theorem update_children_close (known : 0 ≤ parent_id → parent_id ≠ child_id → P parent_id child_id) (closed_in : ClosedIn P s)
    (updated : s.update_children_state parent_id child_id false = some s') : Plain s s' ∧ ClosedIn P s' := by
  rw [update_children_state] at updated
  split_ifs at updated with negative same
  · obtain rfl := some.inj updated
    exact ⟨.refl s,closed_in⟩
  · obtain rfl := some.inj updated
    exact ⟨.refl s,closed_in⟩
  · obtain ⟨⟨id,t⟩,got,rest⟩ := of_bind updated
    obtain ⟨plain,closed⟩ := get_node_info_plain got
    obtain ⟨-,at_id,-⟩ := get_node_info_cases got
    obtain ⟨u,done,result⟩ := of_bind rest
    obtain rfl : t.closeChild id child_id = u := some.inj done
    obtain ⟨plain',children⟩ := closeChild_plain (s := t) id child_id
    split_ifs at result
    obtain rfl := some.inj result
    refine ⟨plain.trans plain',?_⟩
    intro other some_child
    rw [children other] at some_child ⊢
    split_ifs at some_child ⊢ with here
    · rw [here,at_id,Int.toNat_of_nonneg (by omega)]
      exact known (by omega) same
    · rw [closed other] at some_child ⊢
      exact closed_in other some_child

theorem packet_quiet (id : Nat) : Quiet s (s.append_pcap_to_node id) ∧ SameClosed s (s.append_pcap_to_node id) := by
  have first : SameClosed s (s.setNode id fun node => { node with sniff_logs := true }) := setNode_closed fun _ => rfl
  have second : SameClosed (s.setNode id fun node => { node with sniff_logs := true })
      ((s.setNode id fun node => { node with sniff_logs := true }).setNode id fun node => { node with inner_frags_cnt := 1 }) :=
    setNode_closed fun _ => rfl
  rw [append_pcap_to_node]
  simp only
  split_ifs
  · refine ⟨⟨?_,rfl,rfl,rfl,?_⟩,first.trans second⟩
    · have same := Longer.append s.files (fragName id .FRAG_INNER 0) []
      rwa [append_nil] at same
    · intro name file here
      show update s.files _ _ name = _
      by_cases same : name = fragName id .FRAG_INNER 0
      · rw [same] at here ⊢
        rw [update_self]
        show some ((s.files _).getD []) = _
        rw [here]
        rfl
      · rw [update_of_ne same,here]
  · exact ⟨setNode_quiet id _,first⟩
theorem packets_quiet (due : Option Nat) (done : s.append_pcap_until_ts due = some s') : Quiet s s' ∧ SameClosed s s' := by
  obtain ⟨packets,-,rest⟩ := of_bind done
  have turn : ∀ (leaves : List Nat) (s : SplitState), Quiet s (leaves.foldl append_pcap_to_node s) ∧
      SameClosed s (leaves.foldl append_pcap_to_node s) := by
    intro leaves
    induction leaves with
    | nil => exact fun s => ⟨.refl s,fun _ => rfl⟩
    | cons id leaves ih =>
      intro s
      obtain ⟨quiet,closed⟩ := packet_quiet (s := s) id
      obtain ⟨quiet',closed'⟩ := ih (s.append_pcap_to_node id)
      exact ⟨quiet.trans quiet',closed.trans closed'⟩
  have turns : ∀ (leaves counts : List Nat) (s : SplitState),
      Quiet s (counts.foldl (fun s _ => leaves.foldl append_pcap_to_node s) s) ∧
      SameClosed s (counts.foldl (fun s _ => leaves.foldl append_pcap_to_node s) s) := by
    intro leaves counts
    induction counts with
    | nil => exact fun s => ⟨.refl s,fun _ => rfl⟩
    | cons _ counts ih =>
      intro s
      obtain ⟨quiet,closed⟩ := turn leaves s
      obtain ⟨quiet',closed'⟩ := ih (leaves.foldl append_pcap_to_node s)
      exact ⟨quiet.trans quiet',closed.trans closed'⟩
  split_ifs at rest
  · obtain rfl := some.inj rest
    exact ⟨.refl s,fun _ => rfl⟩
  · obtain ⟨leaves,-,rfl⟩ := of_map rest
    exact turns leaves _ s
end

section
variable {s : SplitState} {place : Option Nat} {leaves leaves' : List Nat} {fuel fuel' : Nat} {id : Nat}

variable (walked : s.leafNodes fuel place = some leaves)
include walked
theorem leafNodes_unique (walked' : s.leafNodes fuel' place = some leaves') : leaves = leaves' := by
  induction fuel generalizing place leaves fuel' leaves' with
  | zero =>
    cases place with
    | none =>
      cases fuel' <;> exact (some.inj walked).symm.trans (some.inj walked')
    | some id => cases walked
  | succ fuel ih =>
    cases place with
    | none => cases fuel' <;> exact (some.inj walked).symm.trans (some.inj walked')
    | some id =>
      cases fuel' with
      | zero => cases walked'
      | succ fuel' =>
        obtain ⟨links,here,rest⟩ := of_bind walked
        obtain ⟨behind,walked,result⟩ := of_bind rest
        obtain ⟨links',here',rest'⟩ := of_bind walked'
        obtain ⟨behind',walked',result'⟩ := of_bind rest'
        obtain rfl := some.inj (here.symm.trans here')
        rw [← some.inj result,← some.inj result',ih walked walked']
/-- From every element on the walk gives the rest of the list. -/
theorem leafNodes_suffix (member : id ∈ leaves) :
    ∃ fuel' rest, s.leafNodes fuel' (some id) = some (id :: rest) ∧ (id :: rest) <:+ leaves := by
  induction fuel generalizing place leaves with
  | zero =>
    cases place with
    | none =>
      obtain rfl := some.inj walked
      cases member
    | some => cases walked
  | succ fuel ih =>
    cases place with
    | none =>
      obtain rfl := some.inj walked
      cases member
    | some first =>
      have whole := walked
      obtain ⟨links,here,rest⟩ := of_bind walked
      obtain ⟨behind,further,result⟩ := of_bind rest
      obtain rfl := some.inj result
      obtain rfl | later := mem_cons.mp member
      · exact ⟨fuel+1,behind,whole,List.suffix_refl _⟩
      · grind
/-- A list that ends passes every node once: from a node on it always goes on the same way. -/
theorem leafNodes_nodup : leaves.Nodup := by
  induction fuel generalizing place leaves with
  | zero =>
    cases place with
    | none =>
      obtain rfl := some.inj walked
      exact nodup_nil
    | some => cases walked
  | succ fuel ih =>
    cases place with
    | none =>
      obtain rfl := some.inj walked
      exact nodup_nil
    | some first =>
      have whole := walked
      obtain ⟨links,here,rest⟩ := of_bind walked
      obtain ⟨behind,further,result⟩ := of_bind rest
      obtain rfl := some.inj result
      refine nodup_cons.mpr ⟨fun again => ?_,ih further⟩
      obtain ⟨fuel',rest,found,suffix⟩ := leafNodes_suffix further again
      have longer := suffix.length_le
      rw [← leafNodes_unique whole found,length_cons] at longer
      omega
end

section
variable {raw : Bytes} {s s' : SplitState} {record : IndexRecord} {records all : List IndexRecord} {due : Nat → Option Nat}
  {offset length pos line : Nat} {name : CStr}

/-- A node of the index ends under a parent. -/
def EndsUnder (records : List IndexRecord) (parent child : Int) : Prop :=
  ∃ record ∈ records, record.msg_type = "END".toList ∧ record.parent_id = parent ∧ record.node_id = child
/-- No node ends under two parents. -/
def OneParent (records : List IndexRecord) : Prop :=
  ∀ parent parent' child, EndsUnder records parent child → EndsUnder records parent' child → parent = parent'
/-- The records describe messages one behind another up to the end of the log. -/
def Describes (raw : Bytes) : Nat → List IndexRecord → Prop
  | pos,[] => pos = raw.length
  | pos,record :: records => record.offset = pos ∧ 0 < record.length.getD (raw.length-pos) ∧
      Describes raw (pos+record.length.getD (raw.length-pos)) records

/-- The file of the copy for a leaf node. -/
def LeafFile (s : SplitState) (id : Nat) (name : CStr) : Prop :=
  ∃ num, name = if 0 ≤ (s.nodes id).last_closed_child then fragName (s.nodes id).last_closed_child .FRAG_AFTER num
    else fragName id .FRAG_INNER num
theorem leaf_appended {id : Nat} (done : appendToLeaf raw offset length s id = some s') :
    ∃ name, LeafFile s id name ∧ Word name ∧ Appended raw offset length name s s' ∧ SameClosed s s' := by
  rw [appendToLeaf] at done
  split_ifs at done with closed
  · obtain ⟨num,appended,same⟩ := append_cases done
    exact ⟨_,⟨num,by rw [if_pos closed]⟩,fragName_word _ _ _,appended,same⟩
  · obtain ⟨num,appended,same⟩ := append_cases done
    exact ⟨_,⟨num,by rw [if_neg closed]⟩,fragName_word _ _ _,appended,same⟩
/-- Leaf nodes have different files. -/
theorem leaf_files_differ (one : OneParent all) (closed : ClosedIn (EndsUnder all) s) {id id' : Nat} {name name' : CStr}
    (file : LeafFile s id name) (file' : LeafFile s id' name') (other : id ≠ id') : name ≠ name' := by
  obtain ⟨num,rfl⟩ := file
  obtain ⟨num',rfl⟩ := file'
  intro same
  split_ifs at same with child child' child'
  · obtain ⟨same_child,-⟩ := fragName_injective same
    have ends' := closed id' child'
    rw [← same_child] at ends'
    have parents := one _ _ _ (closed id child) ends'
    omega
  · cases (fragName_injective same).2
  · cases (fragName_injective same).2
  · obtain ⟨same_id,-⟩ := fragName_injective same
    omega
/-- The copies behind the first one change nothing that the recovery needs. -/
theorem leaves_covers (one : OneParent all) {first : Nat} {ids : List Nat} (apart : first ∉ ids) (closed : ClosedIn (EndsUnder all) s)
    (file : LeafFile s first name) (covers : Covers raw s pos offset name)
    (done : ids.foldlM (appendToLeaf raw offset length) s = some s') : Covers raw s' pos offset name ∧ SameClosed s s' := by
  induction ids generalizing s with
  | nil =>
    obtain rfl := some.inj done
    exact ⟨covers,fun _ => rfl⟩
  | cons id ids ih =>
    rw [foldlM_cons] at done
    obtain ⟨t,turn,rest⟩ := of_bind done
    obtain ⟨other,file',-,appended,same⟩ := leaf_appended turn
    have differ : id ≠ first := fun here => apart (by rw [here]; exact mem_cons_self)
    have kept := covers.append (leaf_files_differ one closed file' file differ) appended
    have file_later : LeafFile t first name := by
      obtain ⟨num,named⟩ := file
      exact ⟨num,by rw [same first]; exact named⟩
    obtain ⟨covers',same'⟩ := ih (fun later => apart (mem_cons_of_mem id later)) (closed.same same) file_later kept rest
    exact ⟨covers',same.trans same'⟩
/-- A file of a message without node is no start fragment. -/
theorem LeafFile.not_start {id : Nat} (file : LeafFile s id name) (node_id : Int) (num : Nat) : fragName node_id .FRAG_START num ≠ name := by
  obtain ⟨num',rfl⟩ := file
  intro same
  split_ifs at same <;> cases (fragName_injective same).2

/-- What a message leaves behind: the log is covered up to its end. -/
def Done (raw : Bytes) (all : List IndexRecord) (s : SplitState) (pos : Nat) : Prop := Settled raw s pos ∧ ClosedIn (EndsUnder all) s
theorem one_append {node_id : Int} {frag_type : FragmentType} (settled : Settled raw s offset) (positive : 0 < length)
    (done : s.append_to_frag node_id frag_type raw offset length = some s') :
    ∃ num, Covers raw s' (offset+length) offset (fragName node_id frag_type num) ∧ SameClosed s s' := by
  obtain ⟨num,appended,same⟩ := append_cases done
  exact ⟨num,settled.append positive (fragName_word _ _ _) appended,same⟩
theorem regular_done (one : OneParent all) (state : Done raw all s record.offset) (positive : 0 < length)
    (done : s.splitRegular raw record length = some s') : Done raw all s' (record.offset+length) := by
  obtain ⟨settled,closed⟩ := state
  obtain ⟨t,copied,verdict⟩ := of_bind done
  have copies : ∃ name, Covers raw t (record.offset+length) record.offset name ∧ SameClosed s t ∧
      ∀ node_id num, fragName node_id .FRAG_START num ≠ name := by
    split_ifs at copied
    · obtain ⟨num,covers,same⟩ := one_append settled positive copied
      refine ⟨_,covers,same,?_⟩
      intro node_id num' same_name
      cases (fragName_injective same_name).2
    · obtain ⟨leaves,walked,rest⟩ := of_bind copied
      split_ifs at rest with some_leaf
      rcases leaves with _ | ⟨first,ids⟩
      · exact absurd rfl some_leaf
      · obtain ⟨apart,-⟩ := nodup_cons.mp (leafNodes_nodup walked)
        rw [foldlM_cons] at rest
        obtain ⟨u,turn,rest⟩ := of_bind rest
        obtain ⟨name,file,word,appended,same⟩ := leaf_appended turn
        have file' : LeafFile u first name := by
          obtain ⟨num,named⟩ := file
          exact ⟨num,by rw [same first]; exact named⟩
        obtain ⟨covers,same'⟩ := leaves_covers one apart (closed.same same) file' (settled.append positive word appended) rest
        exact ⟨name,covers,same.trans same',file.not_start⟩
  obtain ⟨name,covers,same,no_start⟩ := copies
  have later : record.offset < record.offset+length := by omega
  split_ifs at verdict
  · obtain rfl := some.inj verdict
    exact ⟨.covers covers later,closed.same same⟩
  · obtain ⟨⟨id,u⟩,got,rest⟩ := of_bind verdict
    obtain ⟨plain,same'⟩ := get_node_info_plain got
    have covers' := plain.quiet.covers covers
    simp only at rest
    split_ifs at rest
    · obtain rfl := some.inj rest
      exact ⟨.covers covers' later,closed.same (same.trans same')⟩
    · obtain ⟨v,copied,rfl⟩ := of_map rest
      obtain ⟨num,appended,same''⟩ := append_cases copied
      have kept := covers'.append (no_start _ _) appended
      refine ⟨.covers ((setNode_quiet _ _).covers kept) later,?_⟩
      exact closed.same (same.trans (same'.trans (same''.trans (setNode_closed fun _ => rfl))))
theorem splitEnd_cases {P : Int → Int → Prop} (known : 0 ≤ record.parent_id → record.parent_id ≠ record.node_id → P record.parent_id record.node_id)
    (closed : ClosedIn P s) (done : s.splitEnd record = some s') : 0 ≤ record.node_id ∧ Plain s s' ∧ ClosedIn P s' := by
  obtain ⟨⟨id,t⟩,got,rest⟩ := of_bind done
  obtain ⟨plain,same⟩ := get_node_info_plain got
  obtain ⟨nonneg,-,-⟩ := get_node_info_cases got
  obtain ⟨u,updated,removed⟩ := of_bind rest
  have marked : SameClosed t (t.setNode id fun node => { node with opened := false }) := setNode_closed fun _ => rfl
  have marked_plain : Plain t (t.setNode id fun node => { node with opened := false }) := setNode_plain fun _ => rfl
  obtain ⟨plain',closed'⟩ := update_children_close known ((closed.same same).same marked) updated
  obtain ⟨plain'',same''⟩ := remove_plain removed
  exact ⟨nonneg,plain.trans (marked_plain.trans (plain'.trans plain'')),closed'.same same''⟩
/-- The start of a node notes what the record says about it. -/
theorem splitStart_cases (done : s.splitStart record length = some s') : 0 ≤ record.node_id ∧
    ∃ t t', Plain s t ∧ SameClosed s t ∧ record.node_id.toNat < t.nodes_count ∧
      t' = (t.setNode record.node_id.toNat fun node =>
        { node with tin := record.tin_or_start_frag, start_len := length, parent := record.parent_id }) ∧
      Plain t' s' ∧ SameClosed t' s' := by
  obtain ⟨⟨id,t⟩,got,rest⟩ := of_bind done
  obtain ⟨plain,same⟩ := get_node_info_plain got
  obtain ⟨nonneg,rfl,-⟩ := get_node_info_cases got
  obtain ⟨u,updated,result⟩ := of_bind rest
  obtain rfl := some.inj result
  have marked : SameClosed t (t.setNode record.node_id.toNat fun node => { node with opened := true }) := setNode_closed fun _ => rfl
  have marked_plain : Plain t (t.setNode record.node_id.toNat fun node => { node with opened := true }) := setNode_plain fun _ => rfl
  obtain ⟨plain',same'⟩ := update_children_open updated
  have room : record.node_id.toNat < t.nodes_count := by
    rw [get_node_info,if_neg (by omega)] at got
    obtain ⟨-,rfl⟩ := of_pair got
    exact growCount_has _ _ _ (by omega)
  obtain ⟨plain'',same''⟩ := insert_plain (s := u.setNode record.node_id.toNat fun node =>
    { node with tin := record.tin_or_start_frag, start_len := length, parent := record.parent_id }) record.node_id.toNat
  exact ⟨nonneg,u,_,plain.trans (marked_plain.trans plain'),same.trans (marked.trans same'),
    lt_of_lt_of_le room (marked_plain.trans plain').count,rfl,plain'',same''⟩
theorem end_done (member : record ∈ all) (ends : record.msg_type = "END".toList) (state : Done raw all s pos)
    (done : s.splitEnd record = some s') : Done raw all s' pos := by
  obtain ⟨settled,closed⟩ := state
  obtain ⟨-,plain,closed'⟩ := splitEnd_cases (fun _ _ => ⟨record,member,ends,rfl,rfl⟩) closed done
  exact ⟨plain.quiet.settled settled,closed'⟩
theorem start_done (state : Done raw all s pos) (done : s.splitStart record length = some s') : Done raw all s' pos := by
  obtain ⟨settled,closed⟩ := state
  obtain ⟨-,t,t',plain,same,-,rfl,plain',same'⟩ := splitStart_cases done
  have noted : SameClosed t (t.setNode record.node_id.toNat fun node =>
    { node with tin := record.tin_or_start_frag, start_len := length, parent := record.parent_id }) := setNode_closed fun _ => rfl
  exact ⟨(plain.quiet.trans ((setNode_quiet _ _).trans plain'.quiet)).settled settled,closed.same (same.trans (noted.trans same'))⟩

/-- Every record covers its message. -/
theorem record_done (one : OneParent all) (member : record ∈ all) (state : Done raw all s record.offset)
    (positive : 0 < record.length.getD (raw.length-record.offset)) {due : Option Nat} (done : s.splitRecord raw due record = some s') :
    Done raw all s' (record.offset+record.length.getD (raw.length-record.offset)) := by
  obtain ⟨t,captured,rest⟩ := of_bind done
  obtain ⟨quiet,same⟩ := packets_quiet due captured
  have state' : Done raw all t record.offset := ⟨quiet.settled state.1,state.2.same same⟩
  have later : record.offset < record.offset+record.length.getD (raw.length-record.offset) := by omega
  split_ifs at rest with regular ends
  · exact regular_done one state' positive rest
  · obtain ⟨u,ended,copied⟩ := of_bind rest
    obtain ⟨settled,closed⟩ := end_done member ends state' ended
    obtain ⟨num,covers,same'⟩ := one_append settled positive copied
    exact ⟨.covers covers later,closed.same same'⟩
  · obtain ⟨u,started,copied⟩ := of_bind rest
    obtain ⟨settled,closed⟩ := start_done state' started
    obtain ⟨num,covers,same'⟩ := one_append settled positive copied
    exact ⟨.covers covers later,closed.same same'⟩
theorem records_done (one : OneParent all) (among : ∀ record ∈ records, record ∈ all) (describes : Describes raw pos records)
    (state : Done raw all s pos) (done : splitRecords raw due s line records = some s') : Done raw all s' raw.length := by
  induction records generalizing s pos line with
  | nil =>
    obtain rfl := some.inj done
    rwa [← show pos = raw.length from describes]
  | cons record records ih =>
    obtain ⟨t,turn,rest⟩ := of_bind done
    obtain ⟨rfl,positive,describes⟩ := describes
    have state' := record_done one (among record mem_cons_self) state positive turn
    exact ih (fun other member => among other (mem_cons_of_mem record member)) describes state' rest
end
end SplitState

section
/-- A record of a message of one byte. -/
def byteRecord (offset : Nat) (msg_type : CStr) (parent_id node_id : Int) : IndexRecord :=
  ⟨offset,parent_id,node_id,msg_type,0,some 1⟩
def noFiles : Files := fun _ => none
/-- The root and two tests one after another in a session, with messages of their own and of none. -/
def smallIndex : List IndexRecord :=
  [byteRecord 0 "START".toList 0 0,byteRecord 1 "START".toList 0 1,byteRecord 2 "REGULAR".toList 1 0,
    byteRecord 3 "REGULAR".toList 0 0,byteRecord 4 "END".toList 0 1,byteRecord 5 "REGULAR".toList 0 0]
/-- A node that ends under two parents, both of them open behind it. -/
def twoParents : List IndexRecord :=
  [byteRecord 0 "START".toList 0 0,byteRecord 1 "START".toList 0 5,byteRecord 2 "END".toList 0 5,
    byteRecord 3 "START".toList 0 1,byteRecord 4 "START".toList 0 2,byteRecord 5 "START".toList 1 3,
    byteRecord 6 "END".toList 1 3,byteRecord 7 "START".toList 2 3,byteRecord 8 "END".toList 2 3,
    byteRecord 9 "REGULAR".toList 0 0,byteRecord 10 "REGULAR".toList 0 0]
end
end TestEnvironment.Rgt
