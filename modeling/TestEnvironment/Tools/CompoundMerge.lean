import TestEnvironment.Tools.CompoundSet

/-!
`te_compound_merge`: the loop copies the items of both compounds in the order of a merge of
sorted lists, as they are. Where an item without separator is not alone in the result, it is
glued to the next one or leaves the compound without terminator.
-/
namespace TestEnvironment.Tools
open Lib

section
variable {front mid back spre text post : CStr}

theorem subText_part (spre text post : CStr) : subText (spre ++ (text ++ post)) ⟨spre.length,text.length⟩ = text := by
  rw [subText,drop_left,take_left]
/-- What the modes make of the items that both sides have for a key. -/
def combine {α : Type} (mod_op : TeCompoundModOp) (old new : List α) : List α :=
  match mod_op with
  | .APPEND => old ++ new
  | .PREPEND => new ++ old
  | .REPLACE => if new = [] then old else new
theorem copy_spec (mod_op : TeCompoundModOp) (more : mod_op = .REPLACE → text ≠ []) :
    te_substring_copy (front ++ (mid ++ back)) ⟨front.length,mid.length⟩ (spre ++ (text ++ post)) ⟨spre.length,text.length⟩ (compound2substring_op mod_op) =
      (front ++ (combine mod_op mid text ++ back),⟨front.length,(combine mod_op mid text).length⟩) := by
  have own : te_substring_is_valid (front ++ (mid ++ back)) ⟨front.length,mid.length⟩ = true := cursor_valid (by simp)
  have other : te_substring_is_valid (spre ++ (text ++ post)) ⟨spre.length,text.length⟩ = true := cursor_valid (by simp)
  rw [te_substring_copy,if_pos own,if_pos other,subText_part]
  cases mod_op with
  | APPEND => grind [replaceText_insert,length_append,modSegment,compound2substring_op,combine]
  | PREPEND =>
    simp only [modSegment,compound2substring_op,combine]
    rw [replaceText_insert]
    simp [Nat.add_comm]
  | REPLACE =>
    simp only [modSegment,compound2substring_op,combine,if_neg (more rfl)]
    rw [replaceText_middle]
    rfl
theorem texts_combine (mod_op : TeCompoundModOp) (l r : List Piece) (more : texts r = [] → r = []) :
    texts (combine mod_op l r) = combine mod_op (texts l) (texts r) := by
  cases mod_op with
  | APPEND => exact texts_append l r
  | PREPEND => exact texts_append r l
  | REPLACE =>
    rw [combine,combine]
    by_cases none' : r = []
    · rw [if_pos none',if_pos (by rw [none']; rfl)]
    · rw [if_neg none',if_neg fun empty => none' (more empty)]
end

section
variable {dst src pre spre : CStr} {p q : Piece} {ps qs : List Piece} {fuel : Nat} {mod_op : TeCompoundModOp}
  {cursor : TeSubstring} {field : Option TeSubstring} {advance : Bool}

/-- A side of the loop: the items that are left, and the cursor in front of them or on the first one. -/
structure Side (comp pre : CStr) (ps : List Piece) (cursor : TeSubstring) (field : Option TeSubstring) (advance : Bool) : Prop where
  text : comp = pre ++ texts ps
  readable : Readable ps
  sorted : SortedBy Piece.order ps
  front : advance = true → te_substring_advance comp cursor = ⟨pre.length,0⟩
  here : advance = false → ∃ p rest, ps = p :: rest ∧ cursor = ⟨pre.length,p.text.length⟩ ∧ field = p.field pre.length

/-- The side on its first item. -/
theorem Side.on (side : Side dst pre (p :: ps) cursor field advance) :
    Side dst pre (p :: ps) ⟨pre.length,p.text.length⟩ (p.field pre.length) false :=
  ⟨side.text,side.readable,side.sorted,nofun,fun _ => ⟨p,ps,rfl,rfl,rfl⟩⟩
theorem Side.on_first (side : Side dst pre (p :: ps) cursor field false) : cursor = ⟨pre.length,p.text.length⟩ ∧ field = p.field pre.length := by
  obtain ⟨_,_,same,first⟩ := side.here rfl
  obtain ⟨rfl,_⟩ := cons.inj same
  exact first
/-- The side behind some items. -/
theorem Side.behind {ps' : List Piece} {n : Nat} {field' : Option TeSubstring} (side : Side dst pre (ps ++ ps') cursor field advance) (pre' : CStr)
    (length : n = (texts ps).length) :
    Side (pre' ++ (texts ps ++ texts ps')) (pre' ++ texts ps) ps' ⟨pre'.length,n⟩ field' true := by
  refine ⟨(append_assoc _ _ _).symm,side.readable.append_right,side.sorted.of_append.2.1,fun _ => ?_,nofun⟩
  rw [advance_cursor (by simp [length]),length,length_append]

/-- An advancing side parses its first item, another one still has it. -/
theorem Side.parsed {σ : Type} (side : Side dst pre (p :: ps) cursor field advance) (place : TeSubstring → Option TeSubstring → σ) :
    (if advance then (parse_next_item dst (if advance then te_substring_advance dst cursor else cursor)).map fun item => place item.iter item.field
      else some (place (if advance then te_substring_advance dst cursor else cursor) field)) =
      some (place ⟨pre.length,p.text.length⟩ (p.field pre.length)) := by
  cases advance with
  | true =>
    rw [if_pos rfl,if_pos rfl,side.front rfl,side.text,parse_readable side.readable]
    rfl
  | false =>
    obtain ⟨rfl,rfl⟩ := side.on_first
    rfl
/-- A side without items has been advancing, and parses nothing. -/
theorem Side.ended (side : Side dst pre [] cursor field advance) :
    advance = true ∧ te_substring_advance dst cursor = ⟨pre.length,0⟩ ∧ parse_next_item dst ⟨pre.length,0⟩ = none := by
  cases advance with
  | true =>
    refine ⟨rfl,side.front rfl,?_⟩
    rw [side.text]
    exact parse_ended pre
  | false =>
    obtain ⟨_,_,same,_⟩ := side.here rfl
    cases same

variable {s : MergeState}

theorem parseSides_left_ended (left : Side s.dst pre [] s.left s.left_field s.advance_left) :
    parseSides src s = ({s with left := ⟨pre.length,0⟩,right := if s.advance_right then te_substring_advance src s.right else s.right},false) := by
  simp [left.ended,parseSides]
theorem parseSides_right_ended (left : Side s.dst pre (p :: ps) s.left s.left_field s.advance_left)
    (right : Side src spre [] s.right s.right_field s.advance_right) :
    parseSides src s = ({s with left := ⟨pre.length,p.text.length⟩,left_field := p.field pre.length,right := ⟨spre.length,0⟩},false) := by
  obtain ⟨advance,front,none'⟩ := right.ended
  have first := left.parsed fun iter field => {s with left := iter,left_field := field,right := if s.advance_right then te_substring_advance src s.right else s.right}
  rw [parseSides]
  simp only [first]
  simp only [advance,if_true,front,none',map_none]
theorem parseSides_both (left : Side s.dst pre (p :: ps) s.left s.left_field s.advance_left)
    (right : Side src spre (q :: qs) s.right s.right_field s.advance_right) :
    parseSides src s = ({s with
      left := ⟨pre.length,p.text.length⟩,left_field := p.field pre.length,
      right := ⟨spre.length,q.text.length⟩,right_field := q.field spre.length},true) := by
  have first := left.parsed fun iter field => {s with left := iter,left_field := field,right := if s.advance_right then te_substring_advance src s.right else s.right}
  have second := right.parsed fun iter field => {s with left := ⟨pre.length,p.text.length⟩,left_field := p.field pre.length,right := iter,right_field := field}
  rw [parseSides]
  simp only [first]
  simp only [second]
theorem Side.rest (right : Side src spre qs cursor field advance) :
    te_substring_till_end src (if advance then te_substring_advance src cursor else cursor) = ⟨spre.length,(texts qs).length⟩ := by
  have till {n : Nat} (inside : n ≤ (texts qs).length) : te_substring_till_end src ⟨spre.length,n⟩ = ⟨spre.length,(texts qs).length⟩ := by
    rw [te_substring_till_end,right.text,if_pos (cursor_valid inside)]
    simp
  cases advance with
  | true =>
    rw [if_pos rfl,right.front rfl]
    exact till (Nat.zero_le _)
  | false =>
    obtain ⟨q,rest,rfl,rfl,_⟩ := right.here rfl
    exact till (by simp)
/-- The end of the merge: what is left of the right side is appended. -/
def mergeRest (src : CStr) (s : MergeState) : CStr := (te_substring_copy s.dst s.left src (te_substring_till_end src s.right) .APPEND).1

/-- The loop is on its way to a text, with as many items left on both sides. -/
def MergesTo (src : CStr) (mod_op : TeCompoundModOp) (s : MergeState) (whole : CStr) (left : Nat) : Prop :=
  ∃ pre spre ps qs, Side s.dst pre ps s.left s.left_field s.advance_left ∧ Side src spre qs s.right s.right_field s.advance_right ∧
    left = ps.length+qs.length ∧ whole = pre ++ texts (mergeRuns Piece.order (combine mod_op) ps qs)

section
variable (left : Side s.dst pre (p :: ps) s.left s.left_field false) (right : Side src spre (q :: qs) s.right s.right_field false)
include left right

theorem fields_order : Orders (te_substring_compare s.dst s.left_field src s.right_field) p.order q.order := by
  obtain ⟨_,field⟩ := left.on_first
  obtain ⟨_,field'⟩ := right.on_first
  have inside : FieldIn s.dst s.left_field := by
    rw [left.text,field]
    exact field_in pre (texts ps) p
  have inside' : FieldIn src s.right_field := by
    rw [right.text,field']
    exact field_in spre (texts qs) q
  have own : fieldKey s.dst s.left_field = p.order := by
    rw [left.text,field]
    exact field_key pre (texts ps) p
  have own' : fieldKey src s.right_field = q.order := by
    rw [right.text,field']
    exact field_key spre (texts qs) q
  rw [← own,← own']
  exact compare_orders inside inside'
variable (mod_op)

/-- An item of the left side stays where it is. -/
theorem merge_less (less : p.order < q.order) : ∃ s', mergeItems src mod_op s = some s' ∧
    MergesTo src mod_op s' (pre ++ texts (mergeRuns Piece.order (combine mod_op) (p :: ps) (q :: qs))) (ps.length+(q :: qs).length) := by
  obtain ⟨cursor,_⟩ := left.on_first
  have compared := (fields_order left right).2.mpr less
  rw [mergeItems]
  simp only [if_pos compared]
  refine ⟨_,rfl,pre ++ p.text,spre,ps,q :: qs,?_,right,rfl,?_⟩
  · have moved := @Side.behind _ pre [p] _ _ _ ps p.text.length s.left_field left pre (by simp)
    simp only [texts_cons,texts_nil,append_nil] at moved
    rw [left.text,cursor]
    exact moved
  · rw [mergeRuns,if_pos less,texts_cons,append_assoc]
/-- An item of the right side is copied before the one on the left. -/
theorem merge_more (more : q.order < p.order) : ∃ s', mergeItems src mod_op s = some s' ∧
    MergesTo src mod_op s' (pre ++ texts (mergeRuns Piece.order (combine mod_op) (p :: ps) (q :: qs))) ((p :: ps).length+qs.length) := by
  obtain ⟨cursor,field⟩ := left.on_first
  obtain ⟨cursor',_⟩ := right.on_first
  have orders := fields_order left right
  have notLess : ¬ te_substring_compare s.dst s.left_field src s.right_field < 0 := fun negative => more.asymm (orders.2.mp negative)
  have copied := @copy_spec pre p.text (texts ps) spre q.text (texts qs) .PREPEND (by simp)
  rw [← texts_cons,← texts_cons,← left.text,← right.text,← cursor,← cursor'] at copied
  simp only [compound2substring_op,combine] at copied
  rw [mergeItems]
  simp only [if_neg notLess,if_pos (orders.1.mpr more),copied]
  refine ⟨_,rfl,pre ++ q.text,spre ++ q.text,p :: ps,qs,⟨?_,left.readable,left.sorted,by simp,fun _ => ⟨p,ps,rfl,?_,?_⟩⟩,?_,rfl,?_⟩
  · simp
  · simp [cursor']
  · simp only [field,cursor',Piece.field,Option.map_map,length_append]
    exact congrArg (p.key.map ·) (funext fun key => by simp)
  · have moved := @Side.behind _ spre [q] _ _ _ qs q.text.length s.right_field right spre (by simp)
    simp only [texts_cons,texts_nil,append_nil] at moved
    rw [cursor',right.text]
    exact moved
  · simp [more.asymm,more,mergeRuns]
/-- The items with one key are combined as a whole. -/
theorem merge_same (same : p.order = q.order) : ∃ s' n, mergeItems src mod_op s = some s' ∧ n ≤ ps.length+qs.length ∧
    MergesTo src mod_op s' (pre ++ texts (mergeRuns Piece.order (combine mod_op) (p :: ps) (q :: qs))) n := by
  obtain ⟨cursor,field⟩ := left.on_first
  obtain ⟨cursor',field'⟩ := right.on_first
  have zero := (fields_order left right).zero.mpr same
  have irrefl : ¬ (0 : Int) < 0 := lt_irrefl 0
  have coverLeft : cover_equal_fields s.dst s.left s.left_field = some ⟨pre.length,(texts (p :: ps.takeWhile fun q => q.order = p.order)).length⟩ := by
    rw [left.text,cursor,field]
    exact cover_spec left.readable
  have coverRight : cover_equal_fields src s.right s.right_field = some ⟨spre.length,(texts (q :: qs.takeWhile fun p => p.order = q.order)).length⟩ := by
    rw [right.text,cursor',field']
    exact cover_spec right.readable
  have cutLeft : p :: ps = (p :: ps.takeWhile fun q => q.order = p.order) ++ ps.dropWhile fun q => q.order = p.order := by
    rw [cons_append,takeWhile_append_dropWhile]
  have cutRight : q :: qs = (q :: qs.takeWhile fun p => p.order = q.order) ++ qs.dropWhile fun p => p.order = q.order := by
    rw [cons_append,takeWhile_append_dropWhile]
  have fewer := (dropWhile_suffix (l := ps) fun q => decide (q.order = p.order)).length_le
  have fewer' := (dropWhile_suffix (l := qs) fun p => decide (p.order = q.order)).length_le
  have merged : mergeRuns Piece.order (combine mod_op) (p :: ps) (q :: qs) =
      combine mod_op (p :: ps.takeWhile fun q => q.order = p.order) (q :: qs.takeWhile fun p => p.order = q.order) ++
        mergeRuns Piece.order (combine mod_op) (ps.dropWhile fun q => q.order = p.order) (qs.dropWhile fun p => p.order = q.order) := by
    rw [mergeRuns,if_neg (by rw [same]; exact lt_irrefl _),if_neg (by rw [same]; exact lt_irrefl _)]
    congr!
  have more : texts (q :: qs.takeWhile fun p => p.order = q.order) ≠ [] := fun none' => right.readable.2.1 (append_eq_nil_iff.mp none').1
  rw [merged]
  rw [cutLeft] at left
  rw [cutRight] at right
  clear cutLeft cutRight merged
  generalize (p :: ps.takeWhile fun q => q.order = p.order) = run at left coverLeft ⊢
  generalize (q :: qs.takeWhile fun p => p.order = q.order) = run' at right more coverRight ⊢
  generalize (ps.dropWhile fun q => q.order = p.order) = behind at left fewer ⊢
  generalize (qs.dropWhile fun p => p.order = q.order) = behind' at right fewer' ⊢
  have copied := @copy_spec pre (texts run) (texts behind) spre (texts run') (texts behind') mod_op fun _ => more
  have joined := texts_combine mod_op run run' fun none' => absurd none' more
  rw [← texts_append,← texts_append,← left.text,← right.text,← joined] at copied
  rw [mergeItems]
  simp only [zero,if_neg irrefl,coverLeft,coverRight,bind_eq_bind,bind_some,copied]
  refine ⟨_,behind.length+behind'.length,rfl,by omega,pre ++ texts (combine mod_op run run'),spre ++ texts run',behind,behind',?_,?_,rfl,?_⟩
  · refine ⟨by simp,left.readable.append_right,left.sorted.of_append.2.1,fun _ => ?_,by simp⟩
    rw [advance_cursor (by simp),length_append]
  · have moved := @Side.behind _ spre run' _ _ _ behind' (texts run').length s.right_field right spre rfl
    rw [right.text,texts_append]
    exact moved
  · rw [texts_append,append_assoc]
theorem mergeItems_spec : ∃ s' n, mergeItems src mod_op s = some s' ∧ n < (p :: ps).length+(q :: qs).length ∧
    MergesTo src mod_op s' (pre ++ texts (mergeRuns Piece.order (combine mod_op) (p :: ps) (q :: qs))) n := by
  rcases lt_trichotomy p.order q.order with less | same | more
  · obtain ⟨s',moved,merges⟩ := merge_less mod_op left right less
    exact ⟨s',_,moved,by simp,merges⟩
  · obtain ⟨s',n,moved,fewer,merges⟩ := merge_same mod_op left right same
    exact ⟨s',n,moved,by simp only [length_cons]; omega,merges⟩
  · obtain ⟨s',moved,merges⟩ := merge_more mod_op left right more
    exact ⟨s',_,moved,by simp,merges⟩
end
variable {whole : CStr} {n : Nat}

theorem mergeLoop_spec (merges : MergesTo src mod_op s whole n) (enough : n < fuel) :
    ∃ s', mergeLoop src mod_op fuel s = some s' ∧ mergeRest src s' = whole := by
  induction fuel generalizing s n with
  | zero => exact absurd enough (Nat.not_lt_zero _)
  | succ fuel ih =>
    obtain ⟨pre,spre,ps,qs,left,right,rfl,rfl⟩ := merges
    cases ps with
    | nil =>
      rw [mergeLoop,parseSides_left_ended left]
      refine ⟨_,rfl,?_⟩
      have copied := @copy_spec pre [] [] spre (texts qs) [] .APPEND (by simp)
      simp only [append_nil,nil_append,length_nil,compound2substring_op,combine] at copied
      have text : s.dst = pre := left.text.trans (append_nil _)
      simp only [mergeRest]
      rw [right.rest,text,right.text,copied,mergeRuns]
    | cons p ps =>
      cases qs with
      | nil =>
        rw [mergeLoop,parseSides_right_ended left right]
        refine ⟨_,rfl,?_⟩
        have copied := @copy_spec pre p.text (texts ps) spre [] [] .APPEND (by simp)
        simp only [append_nil,length_nil,compound2substring_op,combine] at copied
        have text : src = spre := right.text.trans (append_nil _)
        have ended : te_substring_till_end spre ⟨spre.length,0⟩ = ⟨spre.length,0⟩ := by
          rw [te_substring_till_end]
          simp
        simp only [mergeRest]
        rw [left.text,text,ended,texts_cons,copied,mergeRuns]
        rfl
      | cons q qs =>
        rw [mergeLoop,parseSides_both left right]
        obtain ⟨s',n,moved,fewer,merges⟩ := @mergeItems_spec src pre spre p q ps qs mod_op {s with
          left := ⟨pre.length,p.text.length⟩,left_field := p.field pre.length,
          right := ⟨spre.length,q.text.length⟩,right_field := q.field spre.length} left.on right.on
        obtain ⟨s2,looped,result⟩ := ih merges (lt_of_lt_of_le fewer (Nat.le_of_lt_succ enough))
        refine ⟨s2,?_,result⟩
        simp only [moved,bind_some,looped]
/-- The result is the merge of the items, as they are. -/
theorem merge_spec (left : Readable ps) (right : Readable qs) (sortedLeft : SortedBy Piece.order ps) (sortedRight : SortedBy Piece.order qs) :
    te_compound_merge (texts ps) (texts qs) mod_op = some (texts (mergeRuns Piece.order (combine mod_op) ps qs)) := by
  have start (comp : CStr) : te_substring_advance comp ⟨0,0⟩ = ⟨0,0⟩ := @advance_cursor [] comp 0 (Nat.zero_le _)
  have few := texts_length left
  have few' := texts_length right
  have merges : MergesTo (texts qs) mod_op ⟨texts ps,⟨0,0⟩,some ⟨0,0⟩,⟨0,0⟩,some ⟨0,0⟩,true,true⟩
      (texts (mergeRuns Piece.order (combine mod_op) ps qs)) (ps.length+qs.length) :=
    ⟨[],[],ps,qs,⟨rfl,left,sortedLeft,fun _ => start _,nofun⟩,⟨rfl,right,sortedRight,fun _ => start _,nofun⟩,rfl,rfl⟩
  obtain ⟨s',looped,result⟩ := mergeLoop_spec merges (show _ < (texts ps).length+(texts qs).length+1 by omega)
  rw [te_compound_merge,looped,← result]
  rfl
end

section
variable {dst src : CStr} {mod_op : TeCompoundModOp} {ps qs : List Piece}

/-- The result is well-formed, and each key has the values of both compounds, combined by the mode. -/
def MergeRight (dst src : CStr) (mod_op : TeCompoundModOp) : Prop :=
  ∃ dst', te_compound_merge dst src mod_op = some dst' ∧ te_compound_validate dst' = some true ∧
    ∀ key old new, Stores dst key old → Stores src key new → Stores dst' key (combine mod_op old new)
/-- No item without separator stays with others: it is replaced, or the only one that is left. -/
def MergeFits (dst src : CStr) (mod_op : TeCompoundModOp) : Prop :=
  dst = [] ∨ src = [] ∨ dst.getLast? = some TE_COMPOUND_ITEM_SEP ∧ src.getLast? = some TE_COMPOUND_ITEM_SEP ∨
    mod_op = .REPLACE ∧ if src.getLast? = some TE_COMPOUND_ITEM_SEP then te_compound_count src (plainKey dst) ≠ some 0
      else ∀ key, key ≠ plainKey src → te_compound_count dst key = some 0

variable {α : Type}

variable {l r : List α} {a : α}

theorem mem_combine (member : a ∈ combine mod_op l r) : a ∈ l ∨ a ∈ r := by
  cases mod_op with
  | APPEND => exact mem_append.mp member
  | PREPEND => exact (mem_append.mp member).symm
  | REPLACE => grind [combine]
theorem combine_nil (l : List α) : combine mod_op l [] = l := by cases mod_op <;> simp [combine]
theorem nil_combine (r : List α) : combine mod_op [] r = r := by cases mod_op <;> simp [combine,eq_comm]
theorem map_combine {β : Type} (f : α → β) (l r : List α) : (combine mod_op l r).map f = combine mod_op (l.map f) (r.map f) := by
  cases mod_op <;> simp [combine]
  split_ifs <;> rfl

section
variable (left : SortedBy Piece.order ps) (right : SortedBy Piece.order qs)
include left right
theorem merged_sorted : SortedBy Piece.order (mergeRuns Piece.order (combine mod_op) ps qs) :=
  mergeRuns_sorted mem_combine left right
theorem merged_run (k : Key) :
    withKey Piece.order k (mergeRuns Piece.order (combine mod_op) ps qs) = combine mod_op (withKey Piece.order k ps) (withKey Piece.order k qs) :=
  withKey_mergeRuns mem_combine combine_nil nil_combine left right k
theorem merged_values (key : Option CStr) :
    valuesOf key (mergeRuns Piece.order (combine mod_op) ps qs) = combine mod_op (valuesOf key ps) (valuesOf key qs) := by
  rw [valuesOf,merged_run left right,map_combine]
  rfl
end
/-- A text is shorter where separators are missing. -/
theorem texts_sealed (ps : List Piece) : (texts ps).length ≤ (texts (ps.map Piece.sealed)).length ∧
    ((texts ps).length = (texts (ps.map Piece.sealed)).length → ∀ p ∈ ps, p.closed = true) := by
  induction ps with
  | nil => simp
  | cons p ps ih =>
    obtain ⟨shorter,equal⟩ := ih
    rw [map_cons,texts_cons,texts_cons,length_append,length_append]
    have own : p.sealed.text.length = p.text.length+if p.closed then 0 else 1 := by
      cases closed : p.closed <;> simp [Piece.text,Piece.sealed,Piece.keyText,closed,Nat.add_assoc]
    rw [own]
    refine ⟨by omega,fun same => forall_mem_cons.mpr ⟨?_,equal ?_⟩⟩
    · grind
    · omega
theorem Readable.each (readable : Readable ps) : ∀ p ∈ ps, p.Clean ∧ p.text ≠ [] := by
  induction ps with
  | nil => simp
  | cons p ps ih => exact forall_mem_cons.mpr ⟨⟨readable.1,readable.2.1⟩,ih readable.2.2.2⟩
theorem Complete.readable (complete : Complete ps) (each : ∀ p ∈ ps, p.Clean ∧ p.text ≠ []) : Readable ps := by
  induction ps with
  | nil => trivial
  | cons p ps ih =>
    obtain ⟨⟨clean,more⟩,others⟩ := forall_mem_cons.mp each
    rcases complete with closed | few
    · obtain ⟨own,later⟩ := forall_mem_cons.mp closed
      exact ⟨clean,more,.inl own,ih (.inl later) others⟩
    · have none' : ps = [] := length_eq_zero_iff.mp (le_zero.mp (Nat.le_of_succ_le_succ few))
      subst none'
      exact ⟨clean,more,.inr rfl,trivial⟩
/-- Sealed pieces are known from their keys and values. -/
theorem sealed_run (key : Option CStr) (ps : List Piece) :
    withKey Piece.order (keyOrder key) (ps.map Piece.sealed) = (valuesOf key ps).map fun value => ⟨key,value,true⟩ := by
  rw [valuesOf,withKey,withKey,List.filter_map,map_map]
  refine map_congr_left fun p member => ?_
  have own : p.key = key := (mem_withKey.mp (show p ∈ withKey Piece.order (keyOrder key) ps from member)).2
  rw [Piece.sealed,own]
  rfl
theorem sealed_sorted (sorted : SortedBy Piece.order ps) : SortedBy Piece.order (ps.map Piece.sealed) := pairwise_map.mpr sorted
theorem sealed_id (closed : ∀ p ∈ ps, p.closed = true) : ps.map Piece.sealed = ps :=
  (map_congr_left fun p member => sealed_self (closed p member)).trans (List.map_id ps)
/-- Where a piece without separator is not alone, the compound is not the one it should be. -/
theorem merge_complete (left : Readable ps) (right : Readable qs) (sortedLeft : SortedBy Piece.order ps) (sortedRight : SortedBy Piece.order qs) :
    MergeRight (texts ps) (texts qs) mod_op ↔ Complete (mergeRuns Piece.order (combine mod_op) ps qs) := by
  have result := @merge_spec ps qs mod_op left right sortedLeft sortedRight
  have sorted := @merged_sorted mod_op _ _ sortedLeft sortedRight
  have values := @merged_values mod_op _ _ sortedLeft sortedRight
  have clean : ∀ p ∈ mergeRuns Piece.order (combine mod_op) ps qs, p.Clean ∧ p.text ≠ [] := fun p member =>
    (mem_mergeRuns mem_combine member).elim (left.each p) (right.each p)
  generalize mergeRuns Piece.order (combine mod_op) ps qs = merged at result sorted values clean ⊢
  constructor
  · rintro ⟨dst',found,valid,stored⟩
    obtain rfl := some.inj (found.symm.trans result)
    obtain ⟨rs,text,readable,sorted',complete⟩ := validate_pieces valid
    -- the pieces of the text have the keys and values of the merged ones
    have runs (key : Option CStr) : withKey Piece.order (keyOrder key) (rs.map Piece.sealed) = withKey Piece.order (keyOrder key) (merged.map Piece.sealed) := by
      have whole := stored key _ _ (stores_texts left sortedLeft key) (stores_texts right sortedRight key)
      rw [text,← values] at whole
      rw [sealed_run,sealed_run,whole.unique (stores_texts readable sorted' key)]
    have same : rs.map Piece.sealed = merged.map Piece.sealed := SortedBy.ext (sealed_sorted sorted') (sealed_sorted sorted) runs
    have number : rs.length = merged.length := by simpa using congrArg List.length same
    rcases complete with closed | few
    · refine .inl ((texts_sealed merged).2 ?_)
      rw [text,← same,sealed_id closed]
    · exact .inr (by omega)
  · intro complete
    have readable := complete.readable clean
    refine ⟨_,result,(validate_texts readable sorted).mpr complete,fun key old new stored stored' => ?_⟩
    rw [stored.unique (stores_texts left sortedLeft key),stored'.unique (stores_texts right sortedRight key),← values]
    exact stores_texts readable sorted key
theorem mem_combine_right (member : a ∈ r) : a ∈ combine mod_op l r := by
  cases mod_op with
  | APPEND => exact mem_append_right _ member
  | PREPEND => exact mem_append_left _ member
  | REPLACE => rwa [combine,if_neg (List.ne_nil_of_mem member)]
theorem mem_combine_left (member : a ∈ l) (kept : mod_op = .REPLACE → r = []) : a ∈ combine mod_op l r := by
  cases mod_op with
  | APPEND => exact mem_append_left _ member
  | PREPEND => exact mem_append_right _ member
  | REPLACE => rwa [combine,if_pos (kept rfl)]
theorem mem_merged (left : SortedBy Piece.order ps) (right : SortedBy Piece.order qs) (p : Piece) :
    p ∈ mergeRuns Piece.order (combine mod_op) ps qs ↔ p ∈ combine mod_op (withKey Piece.order p.order ps) (withKey Piece.order p.order qs) := by
  rw [← merged_run left right,mem_withKey]
  exact (and_iff_left rfl).symm
theorem count_zero (readable : Readable ps) (sorted : SortedBy Piece.order ps) (key : Option CStr) :
    te_compound_count (texts ps) key = some 0 ↔ withKey Piece.order (keyOrder key) ps = [] := by
  rw [(stores_texts readable sorted key).1,some_inj,length_eq_zero_iff,valuesOf,List.map_eq_nil_iff]
theorem Complete.lone (complete : Complete ps) (open' : ¬ ∀ p ∈ ps, p.closed = true) : ∃ p, ps = [p] ∧ p.closed = false := by
  have few := complete.resolve_left open'
  cases ps with
  | nil => exact absurd (by simp) open'
  | cons p rest => grind
/-- An item without separator next to another one. -/
theorem not_complete {p q : Piece} (open' : p.closed = false) (first : p ∈ ps) (second : q ∈ ps) (different : p ≠ q) : ¬ Complete ps := by
  rintro (closed | few)
  · rw [closed p first] at open'
    cases open'
  · cases ps with
    | nil => cases first
    | cons r rest => grind

section
variable (left : Readable ps) (right : Readable qs) (sortedLeft : SortedBy Piece.order ps) (sortedRight : SortedBy Piece.order qs)
include left right sortedLeft sortedRight

/-- A plain string merged with items that have separators must be replaced by one of them. -/
theorem plain_left {p : Piece} (single : ps = [p]) (open' : p.closed = false) (closed : ∀ q ∈ qs, q.closed = true) (more : qs ≠ []) :
    Complete (mergeRuns Piece.order (combine mod_op) ps qs) ↔ mod_op = .REPLACE ∧ te_compound_count (texts qs) (plainKey (texts ps)) ≠ some 0 := by
  subst single
  have key : plainKey (texts [p]) = p.key := by
    rw [texts_cons,texts_nil,append_nil]
    exact plainKey_text left.1 open'
  have own : withKey Piece.order p.order [p] = [p] := withKey_all (by simp)
  rw [key,ne_eq,count_zero right sortedRight]
  by_cases gone : mod_op = .REPLACE ∧ ¬ withKey Piece.order (keyOrder p.key) qs = []
  · refine iff_of_true (.inl fun q member => ?_) gone
    rcases mem_mergeRuns mem_combine member with mine | other
    · obtain rfl := mem_singleton.mp mine
      rw [mem_merged sortedLeft sortedRight,own] at member
      rw [gone.1,combine,if_neg (show ¬ withKey Piece.order q.order qs = [] from gone.2)] at member
      exact closed q (mem_withKey.mp member).1
    · exact closed q other
  · refine iff_of_false ?_ gone
    obtain ⟨q,member⟩ := exists_mem_of_ne_nil qs more
    have kept : p ∈ mergeRuns Piece.order (combine mod_op) [p] qs := by
      rw [mem_merged sortedLeft sortedRight,own]
      exact mem_combine_left mem_cons_self fun replace => by_contra fun some' => gone ⟨replace,some'⟩
    have there : q ∈ mergeRuns Piece.order (combine mod_op) [p] qs := by
      rw [mem_merged sortedLeft sortedRight]
      exact mem_combine_right (mem_withKey.mpr ⟨member,rfl⟩)
    refine not_complete open' kept there ?_
    rintro rfl
    rw [closed p member] at open'
    cases open'
/-- A plain string that is merged into a compound must replace all of it. -/
theorem plain_right {q : Piece} (single : qs = [q]) (open' : q.closed = false) (more : ps ≠ []) :
    Complete (mergeRuns Piece.order (combine mod_op) ps qs) ↔
      mod_op = .REPLACE ∧ ∀ key, key ≠ plainKey (texts qs) → te_compound_count (texts ps) key = some 0 := by
  subst single
  have key : plainKey (texts [q]) = q.key := by
    rw [texts_cons,texts_nil,append_nil]
    exact plainKey_text right.1 open'
  have own : withKey Piece.order q.order [q] = [q] := withKey_all (by simp)
  have other {k : Key} (different : k ≠ q.order) : withKey Piece.order k [q] = [] := withKey_none (by simpa using different.symm)
  have there : q ∈ mergeRuns Piece.order (combine mod_op) ps [q] := by
    rw [mem_merged sortedLeft sortedRight,own]
    exact mem_combine_right mem_cons_self
  rw [key]
  simp only [count_zero left sortedLeft]
  constructor
  · intro complete
    have alone : mergeRuns Piece.order (combine mod_op) ps [q] = [q] := by
      obtain ⟨r,same,_⟩ := complete.lone fun closed => by
        rw [closed q there] at open'
        cases open'
      rw [same] at there ⊢
      rw [mem_singleton.mp there]
    have parts (k : Key) : combine mod_op (withKey Piece.order k ps) (withKey Piece.order k [q]) = withKey Piece.order k [q] := by
      rw [← merged_run sortedLeft sortedRight,alone]
    have others : ∀ k, k ≠ q.order → withKey Piece.order k ps = [] := fun k different => by
      have part := parts k
      rwa [other different,combine_nil] at part
    refine ⟨?_,fun k different => others k different⟩
    by_contra kept
    obtain ⟨p,member⟩ := exists_mem_of_ne_nil ps more
    have order : p.order = q.order := by_contra fun different => by
      have absent := others p.order different
      exact List.ne_nil_of_mem (mem_withKey.mpr ⟨member,rfl⟩) absent
    have part := congrArg List.length (parts q.order)
    have some' : 0 < (withKey Piece.order q.order ps).length := List.length_pos_of_mem (mem_withKey.mpr ⟨member,order⟩)
    rw [own] at part
    cases mod_op with
    | REPLACE => exact kept rfl
    | APPEND | PREPEND => simp only [combine,length_append,length_singleton] at part; omega
  · rintro ⟨rfl,others⟩
    have alone : mergeRuns Piece.order (combine .REPLACE) ps [q] = [q] := by
      refine SortedBy.ext (merged_sorted sortedLeft sortedRight) sortedRight fun k => ?_
      rw [merged_run sortedLeft sortedRight]
      by_cases here : k = q.order
      · rw [here,own]
        rfl
      · rw [other here,combine_nil]
        exact others k here
    rw [alone]
    exact .inr (le_refl 1)
end
/-- Merged compounds are right exactly if no item without separator stays with others. -/
theorem compound_merge_right (validLeft : te_compound_validate dst = some true) (validRight : te_compound_validate src = some true) :
    MergeRight dst src mod_op ↔ MergeFits dst src mod_op := by
  obtain ⟨ps,rfl,left,sortedLeft,completeLeft⟩ := validate_pieces validLeft
  obtain ⟨qs,rfl,right,sortedRight,completeRight⟩ := validate_pieces validRight
  rw [merge_complete left right sortedLeft sortedRight,MergeFits]
  by_cases noneLeft : ps = []
  · subst noneLeft
    rw [mergeRuns]
    exact iff_of_true completeRight (.inl rfl)
  by_cases noneRight : qs = []
  · subst noneRight
    obtain ⟨p,rest,rfl⟩ := exists_cons_of_ne_nil noneLeft
    rw [mergeRuns]
    exact iff_of_true completeLeft (.inr (.inl rfl))
  have someLeft : texts ps ≠ [] := fun none' => noneLeft (texts_eq_nil left none')
  have someRight : texts qs ≠ [] := fun none' => noneRight (texts_eq_nil right none')
  simp only [someLeft,someRight,false_or,last_closed left noneLeft,last_closed right noneRight]
  by_cases closedRight : ∀ q ∈ qs, q.closed = true
  · rw [if_pos closedRight]
    by_cases closedLeft : ∀ p ∈ ps, p.closed = true
    · refine iff_of_true (.inl fun p member => ?_) (.inl ⟨closedLeft,closedRight⟩)
      exact (mem_mergeRuns mem_combine member).elim (closedLeft p) (closedRight p)
    · obtain ⟨p,single,open'⟩ := completeLeft.lone closedLeft
      rw [plain_left left right sortedLeft sortedRight single open' closedRight noneRight]
      exact (or_iff_right fun both => closedLeft both.1).symm
  · obtain ⟨q,single,open'⟩ := completeRight.lone closedRight
    rw [if_neg closedRight,plain_right left right sortedLeft sortedRight single open' noneLeft]
    exact (or_iff_right fun both => closedRight both.2).symm
theorem compound_merge_right_arrays : MergeRight ['a','\x1e','k','\x1f','v','\x1e'] ['b','\x1e','k','\x1f','w','\x1e'] .PREPEND :=
  (compound_merge_right (by decide) (by decide)).mpr (.inr (.inr (.inl ⟨by decide,by decide⟩)))
/-- An item merged before a plain string: the result is not terminated. -/
theorem merge_before_plain : ¬ ∀ dst src mod_op, te_compound_validate dst = some true → te_compound_validate src = some true →
    MergeRight dst src mod_op := by
  intro claim
  obtain ⟨dst',merged,valid,_⟩ := claim ['k','\x1f','v'] ['a','\x1e'] .APPEND (by decide) (by decide)
  have result : te_compound_merge ['k','\x1f','v'] ['a','\x1e'] .APPEND = some ['a','\x1e','k','\x1f','v'] := by decide
  obtain rfl := some.inj (merged.symm.trans result)
  revert valid
  decide
end

end TestEnvironment.Tools
