import TestEnvironment.Tools.CompoundItems

/-!
`te_compound_set`: where the new item goes, and what the compound holds afterwards.
-/
namespace TestEnvironment.Tools
open Lib

section
variable {front mid back text : CStr}

theorem replaceText_middle (front mid back text : CStr) :
    replaceText (front ++ (mid ++ back)) front.length mid.length text = front ++ (text ++ back) := by
  rw [replaceText]
  split_ifs with behind
  · have empty : mid ++ back = [] := by
      rw [length_append] at behind
      exact length_eq_zero_iff.mp (by omega)
    obtain ⟨rfl,rfl⟩ := append_eq_nil_iff.mp empty
    simp
  · simp
theorem replaceText_insert (front back text : CStr) : replaceText (front ++ back) front.length 0 text = front ++ (text ++ back) :=
  replaceText_middle front [] back text
theorem modify_append (front mid back text : CStr) :
    te_substring_modify (front ++ (mid ++ back)) ⟨front.length,mid.length⟩ .APPEND text = (front ++ ((mid ++ text) ++ back),⟨front.length,(mid ++ text).length⟩) := by
  rw [te_substring_modify,if_pos (cursor_valid (by simp))]
  have inserted := replaceText_insert (front ++ mid) back text
  simp only [append_assoc,length_append] at inserted
  simp only [modSegment]
  rw [inserted]
  simp
theorem modify_prepend (front back text : CStr) :
    te_substring_modify (front ++ back) ⟨front.length,0⟩ .PREPEND text = (front ++ (text ++ back),⟨front.length,text.length⟩) := by
  simp [cursor_valid,replaceText_insert,te_substring_modify,modSegment]
theorem modify_delete (front mid back : CStr) :
    te_substring_modify (front ++ (mid ++ back)) ⟨front.length,mid.length⟩ .REPLACE [] = (front ++ back,⟨front.length,0⟩) := by
  simp [cursor_valid,replaceText_middle,te_substring_modify,modSegment]
/-- The text with a separator behind it, unless it is empty or has one. -/
def sealText (front : CStr) : CStr :=
  if front = [] ∨ front.getLast? = some TE_COMPOUND_ITEM_SEP then front else front ++ [TE_COMPOUND_ITEM_SEP]

theorem insert_sep_spec (front back : CStr) : ∃ sep, sealText front = front ++ sep ∧
    te_substring_insert_sep (front ++ back) ⟨front.length,0⟩ TE_COMPOUND_ITEM_SEP false = (front ++ (sep ++ back),⟨front.length,sep.length⟩) := by
  have before : front ≠ [] → charAt (front ++ back) (front.length-1) = (front.getLast?).getD '\x00' := by
    intro more
    have positive := length_pos_iff.mpr more
    rw [charAt,getElem?_append_left (by omega),List.getLast?_eq_getElem?]
  rw [te_substring_insert_sep,if_pos (cursor_valid (Nat.zero_le _)),sealText]
  by_cases empty : front = []
  · simp [empty]
  · rw [before empty,List.getLast?_eq_some_getLast empty]
    by_cases last : front.getLast empty = TE_COMPOUND_ITEM_SEP
    · simp [last]
    · have positive := length_pos_iff.mpr empty
      rw [if_neg (by simp [empty,last]),if_pos (.inl ⟨positive,by simpa using last⟩),modify_prepend]
      exact ⟨[TE_COMPOUND_ITEM_SEP],rfl,rfl⟩
theorem storeItem_spec (front back : CStr) (key : Option CStr) (value : CStr) :
    storeItem (front ++ back) ⟨front.length,0⟩ key value = sealText front ++ ((⟨key,value,true⟩ : Piece).text ++ back) := by
  obtain ⟨sep,sealed,inserted⟩ := insert_sep_spec front back
  rw [storeItem,inserted,sealed]
  cases key with
  | none =>
    simp only
    rw [modify_append,modify_append]
    simp [Piece.text,Piece.keyText]
  | some key =>
    simp only
    rw [modify_append,modify_append,modify_append]
    simp [Piece.text,Piece.keyText]
end

section
variable {pre : CStr} {p : Piece} {ps : List Piece} {key : Option CStr} {fuel : Nat} {field : Option TeSubstring} {mod_op : TeCompoundModOp} {k : Key}

/-- The run of items with the key of the field ends where the key changes. -/
theorem coverLoop_spec (readable : Readable ps) (enough : ps.length < fuel) (inside : FieldIn (pre ++ texts ps) field)
    (covers : fieldKey (pre ++ texts ps) field = k) : ∃ len,
      coverLoop (pre ++ texts ps) field fuel ⟨pre.length,0⟩ = some ⟨pre.length+(texts (ps.takeWhile fun p => p.order = k)).length,len⟩ ∧
        (texts (ps.takeWhile fun p => p.order = k)).length+len ≤ (texts ps).length := by
  induction ps generalizing pre fuel with
  | nil =>
    obtain ⟨fuel,rfl⟩ := succ_of_lt enough
    rw [coverLoop,parse_ended]
    exact ⟨0,rfl,le_rfl⟩
  | cons p ps ih =>
    obtain ⟨fuel,rfl⟩ := succ_of_lt enough
    have own := (own_field pre p ps).2
    have orders := (compare_orders (field_in pre (texts ps) p) inside).zero
    have next := advance_cons pre p ps
    rw [coverLoop,parse_readable readable]
    simp only [next]
    have orders : te_substring_compare (pre ++ texts (p :: ps)) (p.field pre.length) (pre ++ texts (p :: ps)) field = 0 ↔ p.order = k := by simp_all
    by_cases same : p.order = k
    · rw [if_neg (not_not_intro (orders.mpr same)),List.takeWhile_cons_of_pos (by simpa using same)]
      rw [whole_cons] at inside covers ⊢
      obtain ⟨len,found,fits⟩ := ih readable.2.2.2 (lt_of_succ_lt_succ enough) inside covers
      refine ⟨len,?_,?_⟩
      · rw [found]
        simp [Nat.add_assoc]
      · simp only [texts_cons,length_append] at fits ⊢
        omega
    · simp_all
theorem cover_spec (readable : Readable (p :: ps)) :
    cover_equal_fields (pre ++ texts (p :: ps)) ⟨pre.length,p.text.length⟩ (p.field pre.length) =
      some ⟨pre.length,(texts (p :: ps.takeWhile fun q => q.order = p.order)).length⟩ := by
  obtain ⟨inside,own⟩ := own_field pre p ps
  have next := advance_cons pre p ps
  have enough : ps.length < (pre ++ texts (p :: ps)).length+1 := by grind [texts_length,length_cons]
  rw [cover_equal_fields,next]
  rw [whole_cons] at inside own enough ⊢
  obtain ⟨len,found,fits⟩ := coverLoop_spec readable.2.2.2 enough inside own
  have number : (pre ++ p.text).length+(texts (ps.takeWhile fun q => q.order = p.order)).length =
      pre.length+(texts (p :: ps.takeWhile fun q => q.order = p.order)).length := by
    simp [Nat.add_assoc]
  rw [found,map_some,append_assoc,number]
  refine congrArg some (limit_cursor ?_ (by simp))
  simp only [texts_cons,length_append]
  omega
theorem cover_end (comp : CStr) (field : Option TeSubstring) : cover_equal_fields comp ⟨comp.length,0⟩ field = some ⟨comp.length,0⟩ := by
  have advanced := @advance_cursor comp [] 0 (Nat.zero_le _)
  have limit := @limit_cursor comp [] 0 0 0 (Nat.zero_le _) (Nat.zero_le _)
  rw [append_nil,Nat.add_zero] at advanced limit
  rw [cover_equal_fields,advanced,coverLoop,parse_end]
  exact congrArg some limit

variable {before run behind : List Piece}

/-- The search passes the items with smaller keys. -/
theorem findLoop_before (rest : List Piece) (readable : Readable (before ++ rest)) (less : ∀ q ∈ before, q.order < keyOrder key) (fuel : Nat) :
    ∃ field', findLoop (pre ++ texts (before ++ rest)) key (before.length+fuel) ⟨pre.length,0⟩ field mod_op =
      findLoop (pre ++ texts (before ++ rest)) key fuel ⟨(pre ++ texts before).length,0⟩ field' mod_op := by
  induction before generalizing pre field with
  | nil => exact ⟨field,by simp⟩
  | cons p before ih =>
    obtain ⟨smaller,others⟩ := forall_mem_cons.mp less
    rw [cons_append] at readable ⊢
    have orders := compare_piece readable pre key
    have next := advance_cons pre p (before ++ rest)
    obtain ⟨field',found⟩ := @ih (pre ++ p.text) (p.field pre.length) readable.2.2.2 others
    rw [← whole_cons] at found
    refine ⟨field',?_⟩
    have negative := orders.2.mpr smaller
    rw [length_cons,Nat.succ_add,findLoop,parse_readable readable]
    simp only [next]
    rw [if_neg (by omega),found]
    simp
/-- The items of the key that stay before and behind the new one. -/
def keptBefore (mod_op : TeCompoundModOp) (run : List Piece) : List Piece := if mod_op = .APPEND then run else []
def keptBehind (mod_op : TeCompoundModOp) (run : List Piece) : List Piece := if mod_op = .PREPEND then run else []

/-- The place for the new item, and what is left around it. -/
theorem place_spec (readable : Readable (before ++ run ++ behind)) (parted : Parted Piece.order (keyOrder key) before run behind)
    (mod_op : TeCompoundModOp) : ∃ found, findLoop (texts (before ++ run ++ behind)) key ((texts (before ++ run ++ behind)).length+1) ⟨0,0⟩ field mod_op = some found ∧
      placeItem (texts (before ++ run ++ behind)) found.1 found.2.1 found.2.2 =
        some (texts (before ++ keptBefore mod_op run) ++ texts (keptBehind mod_op run ++ behind),⟨(texts (before ++ keptBefore mod_op run)).length,0⟩) := by
  have short := texts_length readable
  rw [append_assoc] at readable short ⊢
  obtain ⟨fuel,enough⟩ : ∃ fuel, (texts (before ++ (run ++ behind))).length+1 = before.length+(fuel+1) := by
    rw [length_append] at short
    exact ⟨(texts (before ++ (run ++ behind))).length-before.length,by omega⟩
  obtain ⟨field',found⟩ := @findLoop_before [] _ field mod_op _ (run ++ behind) readable parted.less (fuel+1)
  simp only [nil_append,length_nil] at found
  rw [enough,found]
  have rest := readable.append_right
  rw [texts_append]
  cases run with
  | nil =>
    have nothing : keptBefore mod_op [] = [] ∧ keptBehind mod_op [] = [] := by cases mod_op <;> decide
    rw [nothing.1,nothing.2,append_nil,nil_append] at *
    cases behind with
    | nil =>
      rw [texts_nil,append_nil,findLoop,parse_end]
      refine ⟨_,rfl,?_⟩
      have deleted := modify_delete (texts before) [] []
      have advanced := @advance_cursor (texts before) [] 0 (Nat.zero_le _)
      simp only [append_nil,length_nil,Nat.add_zero] at deleted advanced
      cases mod_op with
      | PREPEND => rfl
      | REPLACE =>
        rw [placeItem,cover_end]
        exact congrArg some deleted
      | APPEND => simp [advanced,cover_end,placeItem]
    | cons q behind =>
      have greater := (compare_piece rest (texts before) key).1.mpr (parted.more q mem_cons_self)
      rw [findLoop,parse_readable rest]
      simp only
      rw [if_pos (by omega),if_pos greater]
      exact ⟨_,rfl,rfl⟩
  | cons q run =>
    rw [cons_append] at rest ⊢
    have own := parted.same q mem_cons_self
    have zero := (compare_piece rest (texts before) key).zero.mpr own
    have covered := @cover_spec (texts before) _ _ rest
    have taken : (run ++ behind).takeWhile (fun p => p.order = q.order) = run := by
      refine takeWhile_stopped (fun p member => ?_) fun p head => ?_
      · simpa [own] using parted.same p (mem_cons_of_mem _ member)
      · simpa [own] using (parted.more p (mem_of_mem_head? head)).ne'
    have split : texts (q :: (run ++ behind)) = texts (q :: run) ++ texts behind := by simp
    rw [taken] at covered
    rw [findLoop,parse_readable rest]
    simp only
    rw [if_pos (Int.le_of_eq zero.symm),if_neg (by rw [zero]; decide)]
    refine ⟨_,rfl,?_⟩
    cases mod_op with
    | PREPEND => simp [placeItem,keptBefore,keptBehind]
    | REPLACE =>
      rw [placeItem,covered,map_some,split,modify_delete]
      simp [keptBefore,keptBehind]
    | APPEND => simp_all [advance_cursor,placeItem,keptBefore,keptBehind]
end

section
variable {comp : CStr} {key : Option CStr} {mod_op : TeCompoundModOp} {value : Option CStr} {ps : List Piece}

/-- What the modes make of the values of the key, none being left without a value. -/
def modValues (mod_op : TeCompoundModOp) (value : Option CStr) (old : List CStr) : List CStr :=
  match value,mod_op with
  | none,_ => []
  | some value,.APPEND => old ++ [value]
  | some value,.PREPEND => value :: old
  | some value,.REPLACE => [value]
/-- The compound stays well-formed, the key has the values it should have, and the other keys keep theirs. -/
def SetRight (comp : CStr) (key : Option CStr) (mod_op : TeCompoundModOp) (value : Option CStr) : Prop :=
  ∃ comp', te_compound_set comp key mod_op value = some comp' ∧ te_compound_validate comp' = some true ∧
    (∀ old, Stores comp key old → Stores comp' key (modValues mod_op value old)) ∧
    ∀ other, other ≠ key → ∀ old, Stores comp other old → Stores comp' other old
/-- The key of a single item. -/
def plainKey (comp : CStr) : Option CStr := if TE_COMPOUND_KEY_SEP ∈ comp then some (comp.takeWhile (· ≠ TE_COMPOUND_KEY_SEP)) else none
/-- The new item is to stand before an item without separator. -/
def BeforePlain (comp : CStr) (key : Option CStr) (mod_op : TeCompoundModOp) : Prop :=
  comp ≠ [] ∧ comp.getLast? ≠ some TE_COMPOUND_ITEM_SEP ∧
    (keyOrder key < keyOrder (plainKey comp) ∨ key = plainKey comp ∧ mod_op = .PREPEND)
def CleanText (text : CStr) : Prop := ∀ c ∈ text, Plain c

/-- The piece with its separator. -/
def Piece.sealed (p : Piece) : Piece := {p with closed := true}
theorem sealed_text (p : Piece) : p.sealed.text ≠ [] := by simp [Piece.text,Piece.sealed]
theorem sealed_self {p : Piece} (closed : p.closed = true) : p.sealed = p := by
  cases p
  cases closed
  rfl
theorem sealText_texts (readable : Readable ps) : sealText (texts ps) = texts (ps.map Piece.sealed) := by
  induction ps with
  | nil => rfl
  | cons p ps ih =>
    obtain ⟨clean,more,last,rest⟩ := readable
    by_cases single : ps = []
    · subst single
      rw [texts_cons,texts_nil,append_nil,sealText]
      cases closed : p.closed with
      | true => simp [closed,sealed_self,Piece.text]
      | false =>
        rw [if_neg (not_or.mpr ⟨more,open_text_last clean closed⟩)]
        simp [Piece.text,Piece.sealed,closed,Piece.keyText]
    · have some' : texts ps ≠ [] := fun none' => single (texts_eq_nil rest none')
      have own := last.resolve_right single
      rw [map_cons,texts_cons,texts_cons,← ih rest,sealed_self own,sealText,sealText,List.getLast?_append_of_ne_nil _ some']
      simp only [append_eq_nil_iff,some',and_false,false_or]
      split_ifs
      · rfl
      · rw [append_assoc]
theorem Readable.seal (readable : Readable ps) : Readable (ps.map Piece.sealed) := by
  induction ps with
  | nil => trivial
  | cons p ps ih => exact ⟨⟨readable.1.key,readable.1.value⟩,sealed_text p,.inl rfl,ih readable.2.2.2⟩
theorem valuesOf_sealed (key : Option CStr) (ps : List Piece) : valuesOf key (ps.map Piece.sealed) = valuesOf key ps := by
  rw [valuesOf,valuesOf,withKey,withKey,List.filter_map,map_map]
  rfl
theorem sealed_closed : ∀ p ∈ ps.map Piece.sealed, p.closed = true := by
  intro p member
  obtain ⟨q,_,rfl⟩ := mem_map.mp member
  rfl

variable {before run behind : List Piece}

/-- The items with the key afterwards. -/
def setRun (key : Option CStr) (mod_op : TeCompoundModOp) (value : Option CStr) (run : List Piece) : List Piece :=
  match value with
  | none => []
  | some value => (keptBefore mod_op run).map Piece.sealed ++ ⟨key,value,true⟩ :: keptBehind mod_op run
/-- The items before them. -/
def setBefore (value : Option CStr) (before : List Piece) : List Piece := if value = none then before else before.map Piece.sealed

theorem kept_readable (readable : Readable (before ++ run ++ behind)) (mod_op : TeCompoundModOp) :
    Readable (before ++ keptBefore mod_op run) ∧ Readable (keptBehind mod_op run ++ behind) := by
  cases mod_op with
  | APPEND => exact ⟨readable.append_left,readable.append_right⟩
  | PREPEND => exact ⟨by simpa [keptBefore] using readable.append_left.append_left,(append_assoc before run behind ▸ readable).append_right⟩
  | REPLACE => exact ⟨by simpa [keptBefore] using readable.append_left.append_left,readable.append_right⟩
theorem set_spec (readable : Readable (before ++ run ++ behind)) (parted : Parted Piece.order (keyOrder key) before run behind) :
    te_compound_set (texts (before ++ run ++ behind)) key mod_op value = some (texts (setBefore value before ++ setRun key mod_op value run ++ behind)) := by
  cases value with
  | none =>
    obtain ⟨found,search,place⟩ := @place_spec _ (some ⟨0,0⟩) _ _ _ readable parted .REPLACE
    rw [te_compound_set,if_pos rfl,search]
    simp only [bind_eq_bind,bind_some]
    rw [place]
    simp [setBefore,setRun,keptBefore,keptBehind]
  | some value =>
    obtain ⟨found,search,place⟩ := @place_spec _ (some ⟨0,0⟩) _ _ _ readable parted mod_op
    rw [te_compound_set,if_neg (by simp),search]
    simp only [bind_eq_bind,bind_some]
    rw [place]
    simp only [bind_some]
    rw [storeItem_spec,sealText_texts (kept_readable readable mod_op).1]
    simp [setBefore,setRun]
theorem kept_same (parted : Parted Piece.order (keyOrder key) before run behind) (mod_op : TeCompoundModOp) :
    (∀ p ∈ keptBefore mod_op run, p.order = keyOrder key) ∧ ∀ p ∈ keptBehind mod_op run, p.order = keyOrder key := by
  cases mod_op <;> simp [keptBefore,keptBehind] <;> exact parted.same
theorem set_parted (parted : Parted Piece.order (keyOrder key) before run behind) :
    Parted Piece.order (keyOrder key) (setBefore value before) (setRun key mod_op value run) behind := by
  obtain ⟨first,second⟩ := kept_same parted mod_op
  refine ⟨fun p member => ?_,fun p member => ?_,parted.more⟩
  · rw [setBefore] at member
    split_ifs at member
    · exact parted.less p member
    · obtain ⟨q,own,rfl⟩ := mem_map.mp member
      exact parted.less q own
  · cases value with
    | none => cases member
    | some value =>
      rcases mem_append.mp member with kept | later
      · obtain ⟨q,own,rfl⟩ := mem_map.mp kept
        exact first q own
      · rcases mem_cons.mp later with rfl | kept
        · rfl
        · exact second p kept
theorem set_values (key : Option CStr) (mod_op : TeCompoundModOp) (value : Option CStr) (run : List Piece) :
    (setRun key mod_op value run).map Piece.value = modValues mod_op value (run.map Piece.value) := by
  cases value with
  | none => rfl
  | some value =>
    have sealed (ps : List Piece) : (ps.map Piece.sealed).map Piece.value = ps.map Piece.value := by
      rw [map_map]
      rfl
    cases mod_op <;> simp [setRun,keptBefore,keptBehind,modValues,sealed]
theorem set_readable (readable : Readable (before ++ run ++ behind)) (cleanKey : value ≠ none → ∀ k, key = some k → CleanText k) (clean : ∀ v, value = some v → CleanText v) :
    Readable (setBefore value before ++ setRun key mod_op value run ++ behind) := by
  cases value with
  | none =>
    have front := readable.append_left.append_left
    show Readable (before ++ [] ++ behind)
    rw [append_nil]
    by_cases last : behind = []
    · rw [last,append_nil]
      exact front
    · exact front.append (fun p member => readable.front_closed last p (mem_append_left _ member)) readable.append_right
  | some value =>
    obtain ⟨first,second⟩ := kept_readable readable mod_op
    have new : Readable (⟨key,value,true⟩ :: (keptBehind mod_op run ++ behind)) :=
      ⟨⟨cleanKey (by simp),clean value rfl⟩,sealed_text ⟨key,value,true⟩,.inl rfl,second⟩
    have whole := first.seal.append sealed_closed new
    simpa [setBefore,setRun] using whole
/-- Without a separator there is a single item, whose key can be read off. -/
theorem plainKey_text {p : Piece} (clean : p.Clean) (closed : p.closed = false) : plainKey p.text = p.key := by
  have value : TE_COMPOUND_KEY_SEP ∉ p.value := fun member => (clean.value _ member).2.2 rfl
  have text : p.text = p.keyText ++ p.value := by simp [Piece.text,closed]
  rw [plainKey,text]
  cases keyed : p.key with
  | none => simp [keyed,value,Piece.keyText]
  | some k =>
    have front : ((k ++ [TE_COMPOUND_KEY_SEP]) ++ p.value).takeWhile (· ≠ TE_COMPOUND_KEY_SEP) = k := by
      rw [append_assoc]
      exact takeWhile_stopped (fun c member => by simpa using (clean.key k keyed c member).2.2) (by simp)
    rw [keyText_some keyed,if_pos (by simp),front]
/-- The compound is complete, unless the new item stands before one without separator. -/
theorem set_complete {new : CStr} (readable : Readable (before ++ run ++ behind)) (complete : Complete (before ++ run ++ behind))
    (parted : Parted Piece.order (keyOrder key) before run behind) :
    Complete (setBefore (some new) before ++ setRun key mod_op (some new) run ++ behind) ↔ ¬ BeforePlain (texts (before ++ run ++ behind)) key mod_op := by
  by_cases all : ∀ p ∈ before ++ run ++ behind, p.closed = true
  · have later : ∀ p ∈ setBefore (some new) before ++ setRun key mod_op (some new) run ++ behind, p.closed = true := by
      intro p member
      simp only [setBefore,setRun,mem_append,mem_cons,if_neg (some_ne_none new)] at member
      rcases member with (front | kept | rfl | rest) | last
      · exact sealed_closed p front
      · exact sealed_closed p kept
      · rfl
      · grind [keptBehind]
      · exact all p (mem_append_right _ last)
    refine ⟨fun _ before' => ?_,fun _ => .inl later⟩
    by_cases none' : before ++ run ++ behind = []
    · exact before'.1 (by rw [none']; rfl)
    · exact before'.2.1 ((last_closed readable none').mpr all)
  · have few := complete.resolve_left all
    obtain ⟨q,single⟩ : ∃ q, before ++ run ++ behind = [q] := by
      cases pieces : before ++ run ++ behind with
      | nil => rw [pieces] at all; exact absurd (by simp) all
      | cons q rest => grind
    rw [single] at all readable ⊢
    have open' : q.closed = false := by simpa using all
    have text : texts [q] = q.text := by simp
    have last := open_text_last readable.1 open'
    have plain := plainKey_text readable.1 open'
    have condition : BeforePlain (texts [q]) key mod_op ↔ keyOrder key < q.order ∨ keyOrder key = q.order ∧ mod_op = .PREPEND := by
      rw [text,BeforePlain,plain]
      exact ⟨fun both => both.2.2,fun here => ⟨readable.2.1,last,here⟩⟩
    rw [condition]
    have pair (p : Piece) : ¬ Complete [p,q] := by
      rintro (closed | short)
      · rw [closed q (by simp)] at open'
        cases open'
      · exact absurd short (lt_irrefl 1)
    rcases List.append_eq_singleton_iff.mp single with ⟨front,rfl⟩ | ⟨front,rfl⟩
    · -- the single item has a greater key
      obtain ⟨rfl,rfl⟩ := append_eq_nil_iff.mp front
      have greater := parted.more q (by simp)
      have result : setBefore (some new) [] ++ setRun key mod_op (some new) [] ++ [q] = [⟨key,new,true⟩,q] := by cases mod_op <;> rfl
      rw [result]
      exact ⟨fun complete => absurd complete (pair _),fun other => absurd (.inl greater) other⟩
    · rw [append_nil]
      rcases List.append_eq_singleton_iff.mp front with ⟨rfl,rfl⟩ | ⟨rfl,rfl⟩
      · -- it has the same key
        have same := parted.same q (by simp)
        rw [same]
        simp only [lt_self_iff_false,false_or,true_and]
        cases mod_op with
        | PREPEND =>
          have result : setBefore (some new) [] ++ setRun key .PREPEND (some new) [q] = [⟨key,new,true⟩,q] := rfl
          rw [result]
          exact ⟨fun complete => absurd complete (pair _),fun other => absurd rfl other⟩
        | APPEND => exact ⟨fun _ => by decide,fun _ => .inl (by simp [setBefore,setRun,keptBefore,keptBehind,Piece.sealed])⟩
        | REPLACE => exact ⟨fun _ => by decide,fun _ => .inl (by simp [setBefore,setRun,keptBefore,keptBehind])⟩
      · -- it has a smaller key
        have less := parted.less q (by simp)
        refine ⟨fun _ => ?_,fun _ => .inl ?_⟩
        · grind
        · cases mod_op <;> simp [setBefore,setRun,keptBefore,keptBehind,Piece.sealed]
theorem CleanText.of_stored {new : CStr} {values : List CStr} (valid : te_compound_validate comp = some true) (stores : Stores comp key values)
    (member : new ∈ values) : ∀ k, key = some k → CleanText k := by
  obtain ⟨ps,rfl,readable,sorted,_⟩ := validate_pieces valid
  obtain rfl := stores.unique (stores_texts readable sorted key)
  obtain ⟨p,own,_⟩ := mem_map.mp member
  obtain ⟨listed,same⟩ := mem_withKey.mp own
  intro k keyed
  exact (readable.clean p listed).key k (show p.key = some k from same.trans (congrArg keyOrder keyed))
theorem setBefore_sorted (sorted : SortedBy Piece.order before) (value : Option CStr) : SortedBy Piece.order (setBefore value before) := by
  rw [setBefore]
  split_ifs
  · exact sorted
  · exact pairwise_map.mpr sorted
theorem valuesOf_setBefore (key value : Option CStr) (before : List Piece) : valuesOf key (setBefore value before) = valuesOf key before := by
  rw [setBefore]
  split_ifs
  · rfl
  · exact valuesOf_sealed key before
/-- Whatever the mode, the other keys keep their values. -/
theorem set_others {other : Option CStr} (parted : Parted Piece.order (keyOrder key) before run behind) (different : other ≠ key) :
    valuesOf other (setBefore value before ++ setRun key mod_op value run ++ behind) = valuesOf other (before ++ run ++ behind) := by
  have changed := (@set_parted _ mod_op value _ _ _ parted).withKey_other (j := keyOrder other) different
  have kept := parted.withKey_other (j := keyOrder other) different
  have front := valuesOf_setBefore other value before
  rw [valuesOf] at front ⊢
  rw [changed,valuesOf,kept,map_append,map_append,front]
  rfl
/-- The compound is right exactly if the key has no separators and no item without separator follows the new one. -/
theorem compound_set_right (valid : te_compound_validate comp = some true) (clean : ∀ v, value = some v → CleanText v) :
    SetRight comp key mod_op value ↔ value = none ∨ (∀ k, key = some k → CleanText k) ∧ ¬ BeforePlain comp key mod_op := by
  obtain ⟨ps,rfl,readable,sorted,complete⟩ := validate_pieces valid
  obtain ⟨before,run,behind,parted,split,front,rear⟩ : ∃ before run behind, Parted Piece.order (keyOrder key) before run behind ∧
      ps = before ++ run ++ behind ∧ SortedBy Piece.order before ∧ SortedBy Piece.order behind :=
    ⟨_,_,_,Parted.of_list Piece.order (keyOrder key) ps,sorted.split (keyOrder key),sorted.sublist List.filter_sublist,sorted.sublist List.filter_sublist⟩
  subst split
  have result := @set_spec _ mod_op value _ _ _ readable parted
  have parted' := @set_parted _ mod_op value _ _ _ parted
  have sorted' := parted'.sorted (setBefore_sorted front value) rear
  have old (k : Option CStr) := stores_texts readable sorted k
  have own : valuesOf key (before ++ run ++ behind) = run.map Piece.value := congrArg (List.map Piece.value) parted.withKey_self
  have values : valuesOf key (setBefore value before ++ setRun key mod_op value run ++ behind) = modValues mod_op value (run.map Piece.value) :=
    (congrArg (List.map Piece.value) parted'.withKey_self).trans (set_values key mod_op value run)
  -- what the pieces say about the compound where they can be read
  have right (readable' : Readable (setBefore value before ++ setRun key mod_op value run ++ behind)) :
      SetRight (texts (before ++ run ++ behind)) key mod_op value ↔ Complete (setBefore value before ++ setRun key mod_op value run ++ behind) := by
    constructor
    · rintro ⟨comp',set,valid',_⟩
      obtain rfl := some.inj (set.symm.trans result)
      exact (validate_texts readable' sorted').mp valid'
    · intro complete'
      refine ⟨_,result,(validate_texts readable' sorted').mpr complete',fun olds stored => ?_,fun other different olds stored => ?_⟩
      · rw [stored.unique (old key),own,← values]
        exact stores_texts readable' sorted' key
      · rw [stored.unique (old other),← @set_others _ mod_op value _ _ _ _ parted different]
        exact stores_texts readable' sorted' other
  cases value with
  | none =>
    refine iff_of_true ((right (set_readable readable (fun some' => absurd rfl some') clean)).mpr ?_) (.inl rfl)
    rcases complete with all | few
    · refine .inl fun p member => all p ?_
      simp only [setBefore,setRun,append_nil,mem_append,if_true] at member ⊢
      exact member.elim (fun here => .inl (.inl here)) .inr
    · refine .inr ?_
      simp only [setBefore,setRun,append_nil,length_append,if_true] at few ⊢
      omega
  | some new =>
    simp only [some_ne_none,false_or] at right ⊢
    constructor
    · intro whole
      have cleanKey : ∀ k, key = some k → CleanText k := by
        obtain ⟨comp',_,valid',stored,_⟩ := whole
        exact @CleanText.of_stored _ _ new _ valid' (stored _ (old key)) (by cases mod_op <;> simp [modValues])
      have readable' := @set_readable _ mod_op _ _ _ _ readable (fun _ => cleanKey) clean
      exact ⟨cleanKey,(set_complete readable complete parted).mp ((right readable').mp whole)⟩
    · rintro ⟨cleanKey,notBefore⟩
      have readable' := @set_readable _ mod_op _ _ _ _ readable (fun _ => cleanKey) clean
      exact (right readable').mpr ((set_complete readable complete parted).mpr notBefore)
theorem compound_set_right_array : SetRight ['a','\x1e','b','\x1e','k','\x1f','v','\x1e'] none .PREPEND (some ['c']) :=
  (compound_set_right (by decide) (by rintro _ ⟨⟩ c member; obtain rfl := mem_singleton.mp member; exact ⟨by decide,by decide,by decide⟩)).mpr (.inr ⟨by simp,fun before => absurd before.2.1 (by decide)⟩)
/-- A value set before a plain string: the result is not terminated. -/
theorem plain_set_before : ¬ ∀ comp key mod_op value, te_compound_validate comp = some true → (∀ v, value = some v → CleanText v) →
    SetRight comp key mod_op value := by
  intro claim
  obtain ⟨comp',set,valid,_⟩ := claim ['a'] none .PREPEND (some ['b']) (by decide) (by rintro _ ⟨⟩ c member; obtain rfl := mem_singleton.mp member; exact ⟨by decide,by decide,by decide⟩)
  have result : te_compound_set ['a'] none .PREPEND (some ['b']) = some ['b','\x1e','a'] := by decide
  obtain rfl := some.inj (set.symm.trans result)
  revert valid
  decide

end

end TestEnvironment.Tools
