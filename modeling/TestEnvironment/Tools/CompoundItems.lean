import TestEnvironment.Tools.Compound
import TestEnvironment.Lib.Multimap

/-!
Compound strings as lists of pieces, each an item with or without the separator behind it:
what the parser finds at a piece, and what the readers give for a list of them.
-/
namespace TestEnvironment.Tools
open Lib

section
variable {a b : CStr} {base base1 base2 : CStr} {field field1 field2 : Option TeSubstring}

/-- The result of a comparison has the sign of the order. -/
def Orders {κ : Type} [LT κ] (c : Int) (x y : κ) : Prop := (0 < c ↔ y < x) ∧ (c < 0 ↔ x < y)

variable {κ : Type}

theorem Orders.zero [LinearOrder κ] {c : Int} {x y : κ} (orders : Orders c x y) : c = 0 ↔ x = y := by
  obtain ⟨more,less⟩ := orders
  constructor
  · grind
  · grind
theorem Orders.of_lt [Preorder κ] {x y : κ} (less : x < y) : Orders (-1) x y :=
  ⟨⟨fun positive => absurd positive (by decide),fun more => absurd more less.asymm⟩,⟨fun _ => less,fun _ => by decide⟩⟩
theorem Orders.of_gt [Preorder κ] {x y : κ} (more : y < x) : Orders 1 x y :=
  ⟨⟨fun _ => more,fun _ => by decide⟩,⟨fun negative => absurd negative (by decide),fun less => absurd less more.asymm⟩⟩
theorem Orders.of_same [Preorder κ] (x : κ) : Orders 0 x x :=
  ⟨⟨fun positive => absurd positive (by decide),fun more => absurd more (lt_irrefl x)⟩,
    ⟨fun negative => absurd negative (by decide),fun less => absurd less (lt_irrefl x)⟩⟩
theorem memcmp_orders (a b : CStr) :
    Orders (if memcmp a b ≠ 0 then memcmp a b else if b.length < a.length then 1 else if a.length < b.length then -1 else 0) a b := by
  induction a generalizing b with
  | nil => cases b <;> simp [memcmp,Orders]
  | cons x a ih =>
    cases b with
    | nil => simp [memcmp,Orders]
    | cons y b =>
      have rest := ih b
      rw [memcmp]
      rcases lt_trichotomy x y with less | rfl | more
      · simp [Orders,less.ne,less,cons_lt_cons_iff,less.not_gt,less.ne']
      · simpa [Orders,cons_lt_cons_iff] using rest
      · simp [Orders,more.ne',more,cons_lt_cons_iff,more.not_gt,more.ne]
theorem strncmp_orders (a b : CStr) (plain : '\x00' ∉ a) :
    Orders (if strncmp a b ≠ 0 then strncmp a b else if b.length = a.length then 0 else -1) a b := by
  induction a generalizing b with
  | nil => cases b <;> simp [strncmp,Orders]
  | cons x a ih =>
    obtain ⟨first,others⟩ := List.ne_and_not_mem_of_not_mem_cons plain
    cases b with
    | nil => simp [strncmp,Orders,Ne.symm first]
    | cons y b =>
      have rest := ih b others
      rw [strncmp]
      rcases lt_trichotomy x y with less | rfl | more
      · simp [Orders,less.ne,less,cons_lt_cons_iff,less.not_gt,less.ne']
      · simpa [Orders,cons_lt_cons_iff] using rest
      · simp [Orders,more.ne',more,cons_lt_cons_iff,more.not_gt,more.ne]

/-- Keys are in the order of their characters, no key before all others. -/
abbrev Key := WithBot CStr
def keyOrder (key : Option CStr) : Key := key
/-- The key that a field covers. -/
def fieldKey (base : CStr) (field : Option TeSubstring) : Key := field.map (subText base)
def FieldIn (base : CStr) (field : Option TeSubstring) : Prop := ∀ sub, field = some sub → te_substring_is_valid base sub = true

theorem subText_length {sub : TeSubstring} (valid : te_substring_is_valid base sub = true) : (subText base sub).length = sub.len := by
  simp only [te_substring_is_valid,decide_eq_true_eq] at valid
  rw [subText,length_take,length_drop]
  omega
theorem compare_orders (in1 : FieldIn base1 field1) (in2 : FieldIn base2 field2) :
    Orders (te_substring_compare base1 field1 base2 field2) (fieldKey base1 field1) (fieldKey base2 field2) := by
  cases field1 with
  | none =>
    cases field2 with
    | none => exact .of_same _
    | some sub2 =>
      have valid := in2 sub2 rfl
      simp only [te_substring_compare,validOrNull,valid,if_true]
      exact .of_lt (WithBot.bot_lt_coe _)
  | some sub1 =>
    have valid1 := in1 sub1 rfl
    cases field2 with
    | none =>
      simp only [te_substring_compare,valid1,if_true]
      exact .of_gt (WithBot.bot_lt_coe _)
    | some sub2 =>
      have valid2 := in2 sub2 rfl
      have orders := memcmp_orders (subText base1 sub1) (subText base2 sub2)
      rw [subText_length valid1,subText_length valid2] at orders
      simp only [te_substring_compare,valid1,valid2,not_true_eq_false,if_false]
      exact ⟨orders.1.trans WithBot.coe_lt_coe.symm,orders.2.trans WithBot.coe_lt_coe.symm⟩
theorem compare_str_orders (in1 : FieldIn base field) (plain : ∀ sub, field = some sub → '\x00' ∉ subText base sub) (str : Option CStr) :
    Orders (te_substring_compare_str base field str) (fieldKey base field) (keyOrder str) := by
  cases field with
  | none =>
    cases str with
    | none => exact .of_same _
    | some str => exact .of_lt (WithBot.bot_lt_coe _)
  | some sub =>
    have valid := in1 sub rfl
    cases str with
    | none =>
      simp only [te_substring_compare_str,valid,if_true]
      exact .of_gt (WithBot.bot_lt_coe _)
    | some str =>
      have orders := strncmp_orders (subText base sub) str (plain sub rfl)
      rw [subText_length valid] at orders
      simp only [te_substring_compare_str,valid,not_true_eq_false,if_false]
      exact ⟨orders.1.trans WithBot.coe_lt_coe.symm,orders.2.trans WithBot.coe_lt_coe.symm⟩
end

section

/-- An item of a compound, closed where the separator stands behind it. -/
structure Piece where
  key : Option CStr
  value : CStr
  closed : Bool
  deriving DecidableEq, Repr

namespace Piece
variable (p : Piece)

def order : Key := keyOrder p.key
def keyText : CStr := (p.key.map (· ++ [TE_COMPOUND_KEY_SEP])).getD []
def text : CStr := p.keyText ++ p.value ++ if p.closed then [TE_COMPOUND_ITEM_SEP] else []
/-- The field of the piece where it stands at a position. -/
def field (pos : Nat) : Option TeSubstring := p.key.map fun key => ⟨pos,key.length⟩
end Piece

def Plain (c : Char) : Prop := c ≠ '\x00' ∧ c ≠ TE_COMPOUND_ITEM_SEP ∧ c ≠ TE_COMPOUND_KEY_SEP
/-- What the parser takes for a piece; its value may still hold a key separator. -/
structure Piece.Parsed (p : Piece) : Prop where
  key : ∀ key, p.key = some key → ∀ c ∈ key, Plain c
  value : ∀ c ∈ p.value, c ≠ '\x00' ∧ c ≠ TE_COMPOUND_ITEM_SEP
  unkeyed : p.key = none → TE_COMPOUND_KEY_SEP ∉ p.value
/-- A key and a value without separators and zeros. -/
structure Piece.Clean (p : Piece) : Prop where
  key : ∀ key, p.key = some key → ∀ c ∈ key, Plain c
  value : ∀ c ∈ p.value, Plain c
theorem Piece.Clean.parsed {p : Piece} (clean : p.Clean) : p.Parsed :=
  ⟨clean.key,fun c member => ⟨(clean.value c member).1,(clean.value c member).2.1⟩,fun _ member => (clean.value _ member).2.2 rfl⟩
end

section
variable {pre mid tail post : CStr} {cset : CStr} {p : Piece} {n : Nat}

/-- What stops a search: the end of the text, or a zero or a character of the set. -/
def Stops (cset tail : CStr) : Prop := ∀ c ∈ tail.head?, c = '\x00' ∨ c ∈ cset

theorem takeWhile_stopped {α : Type} {q : α → Bool} {mid tail : List α} (all : ∀ c ∈ mid, q c = true) (stop : ∀ c ∈ tail.head?, q c = false) :
    (mid ++ tail).takeWhile q = mid := by
  rw [List.takeWhile_append_of_pos all]
  cases tail with
  | nil => simp
  | cons c tail => simp_all
theorem charAt_append (pre tail : CStr) : charAt (pre ++ tail) pre.length = tail.headD '\x00' := by
  rw [charAt]
  cases tail <;> simp
theorem cursor_valid (fits : n ≤ tail.length) : te_substring_is_valid (pre ++ tail) ⟨pre.length,n⟩ = true := by simp_all [te_substring_is_valid]
theorem span_text (all : ∀ c ∈ mid, c ≠ '\x00' ∧ c ∉ cset) (stop : Stops cset tail) :
    te_substring_span (pre ++ (mid ++ tail)) ⟨pre.length,0⟩ cset = (tail.headD '\x00',⟨pre.length,mid.length⟩) := by
  have taken : ((pre ++ (mid ++ tail)).drop (pre.length+0)).takeWhile (fun c => c ≠ '\x00' ∧ c ∉ cset) = mid := by
    rw [Nat.add_zero,drop_left]
    refine takeWhile_stopped (fun c member => by simpa using all c member) fun c head => ?_
    rcases stop c head with zero | member
    · simp [zero]
    · simp [member]
  rw [te_substring_span,if_pos (cursor_valid (Nat.zero_le _))]
  simp only [taken,Nat.zero_add]
  rw [← append_assoc,show pre.length+mid.length = (pre ++ mid).length by simp,charAt_append]
theorem advance_cursor (fits : n ≤ tail.length) : te_substring_advance (pre ++ tail) ⟨pre.length,n⟩ = ⟨pre.length+n,0⟩ :=
  if_pos (cursor_valid fits)
variable {sep : Char}

theorem skip_sep (tail : CStr) : te_substring_skip (pre ++ sep :: tail) sep 1 ⟨pre.length,0⟩ = ⟨pre.length+1,0⟩ := by
  simp [cursor_valid,charAt_append,te_substring_skip]
theorem skip_none (other : tail.headD '\x00' ≠ sep) : te_substring_skip (pre ++ tail) sep 1 ⟨pre.length,0⟩ = ⟨pre.length,0⟩ := by
  simp_all [charAt_append,te_substring_skip]
theorem limit_cursor {len len' : Nat} (fits : n+len' ≤ tail.length) (own : len ≤ tail.length) :
    te_substring_limit (pre ++ tail) ⟨pre.length,len⟩ ⟨pre.length+n,len'⟩ = ⟨pre.length,n⟩ := by
  have valid : te_substring_is_valid (pre ++ tail) ⟨pre.length+n,len'⟩ = true := by
    simp only [te_substring_is_valid,decide_eq_true_eq,length_append]
    omega
  rw [te_substring_limit,if_neg (by simp only [cursor_valid own,valid]; simp)]
  simp

/-- What may stand behind a piece: anything if it is closed, otherwise nothing or a zero. -/
def Ends (p : Piece) (post : CStr) : Prop := p.closed = false → ∀ c ∈ post.head?, c = '\x00'

/-- The end of an item: the separator is skipped. -/
theorem item_end (ends : Ends p post) (mid : CStr) (pre : CStr) :
    te_substring_skip (pre ++ (mid ++ ((if p.closed then [TE_COMPOUND_ITEM_SEP] else []) ++ post))) TE_COMPOUND_ITEM_SEP 1 ⟨pre.length+mid.length,0⟩ =
      ⟨pre.length+(mid ++ if p.closed then [TE_COMPOUND_ITEM_SEP] else []).length,0⟩ := by
  rw [← append_assoc,show pre.length+mid.length = (pre ++ mid).length by simp]
  cases closed : p.closed with
  | true =>
    simp only [if_true,cons_append,nil_append]
    rw [skip_sep]
    simp [Nat.add_assoc]
  | false =>
    simp only [false_eq_true,if_false,nil_append,append_nil]
    rw [skip_none]
    · simp
    · cases post with
      | nil => decide
      | cons c post =>
        rw [ends closed c rfl]
        exact (by decide : '\x00' ≠ TE_COMPOUND_ITEM_SEP)
theorem parse_end (comp : CStr) : parse_next_item comp ⟨comp.length,0⟩ = none := by
  rw [parse_next_item,if_pos]
  simp [te_substring_past_end,te_substring_is_valid]
/-- The separator behind a piece, if any. -/
def Piece.close (p : Piece) : CStr := if p.closed then [TE_COMPOUND_ITEM_SEP] else []

theorem close_stops (ends : Ends p post) : Stops [TE_COMPOUND_ITEM_SEP] (p.close ++ post) := by
  intro c head
  cases closed : p.closed with
  | true => exact .inr (by simpa [Piece.close,closed] using head.symm)
  | false => exact .inl (ends closed c (by simpa [Piece.close,closed] using head))
theorem close_not_key (ends : Ends p post) : (p.close ++ post).headD '\x00' ≠ TE_COMPOUND_KEY_SEP := by
  have stops := close_stops ends
  cases rest : p.close ++ post with
  | nil => decide
  | cons c tail =>
    rcases stops c (by rw [rest]; rfl) with zero | member
    · simp [zero,TE_COMPOUND_KEY_SEP]
    · rw [mem_singleton.mp member]
      exact (by decide : TE_COMPOUND_ITEM_SEP ≠ TE_COMPOUND_KEY_SEP)
/-- The parser finds the piece at the cursor. -/
theorem parse_piece (parsed : p.Parsed) (ends : Ends p post) (more : p.text ++ post ≠ []) :
    parse_next_item (pre ++ (p.text ++ post)) ⟨pre.length,0⟩ =
      some ⟨⟨pre.length,p.text.length⟩,p.field pre.length,⟨pre.length+p.keyText.length,p.value.length⟩⟩ := by
  have inside : ¬ te_substring_past_end (pre ++ (p.text ++ post)) ⟨pre.length,0⟩ = true := by simp_all [te_substring_past_end]
  have limit := @limit_cursor pre (p.text ++ post) p.text.length 0 0 (by simp) (Nat.zero_le _)
  rw [parse_next_item,if_neg inside]
  have text : p.text = p.keyText ++ (p.value ++ p.close) := by rw [Piece.text,Piece.close,append_assoc]
  cases key : p.key with
  | none =>
    have empty : p.keyText = [] := by rw [Piece.keyText,key]; rfl
    have plain : ∀ c ∈ p.value, c ≠ '\x00' ∧ c ∉ [TE_COMPOUND_ITEM_SEP,TE_COMPOUND_KEY_SEP] := fun c member => ⟨(parsed.value c member).1,by
      simp only [mem_cons,not_mem_nil,or_false,not_or]
      exact ⟨(parsed.value c member).2,fun equal => parsed.unkeyed key (equal ▸ member)⟩⟩
    have stops : Stops [TE_COMPOUND_ITEM_SEP,TE_COMPOUND_KEY_SEP] (p.close ++ post) := fun c head =>
      (close_stops ends c head).imp_right fun member => mem_cons.mpr (.inl (mem_singleton.mp member))
    rw [text,empty,nil_append] at limit ⊢
    rw [append_assoc] at limit ⊢
    rw [span_text plain stops]
    simp only [if_neg (close_not_key ends)]
    rw [advance_cursor (by simp),Piece.close,item_end ends]
    rw [Piece.close] at limit
    rw [limit]
    simp [Piece.field,key]
  | some k =>
    have keyed : p.keyText = k ++ [TE_COMPOUND_KEY_SEP] := by rw [Piece.keyText,key]; rfl
    have plain : ∀ c ∈ k, c ≠ '\x00' ∧ c ∉ [TE_COMPOUND_ITEM_SEP,TE_COMPOUND_KEY_SEP] := fun c member => ⟨(parsed.key k key c member).1,by
      simp only [mem_cons,not_mem_nil,or_false,not_or]
      exact (parsed.key k key c member).2⟩
    have stops : Stops [TE_COMPOUND_ITEM_SEP,TE_COMPOUND_KEY_SEP] (TE_COMPOUND_KEY_SEP :: (p.value ++ (p.close ++ post))) := by
      rintro c head
      obtain rfl : TE_COMPOUND_KEY_SEP = c := by simpa using head
      exact .inr (by simp)
    have plain2 : ∀ c ∈ p.value, c ≠ '\x00' ∧ c ∉ [TE_COMPOUND_ITEM_SEP] := fun c member =>
      ⟨(parsed.value c member).1,fun equal => (parsed.value c member).2 (mem_singleton.mp equal)⟩
    have whole : pre ++ (p.text ++ post) = pre ++ (k ++ TE_COMPOUND_KEY_SEP :: (p.value ++ (p.close ++ post))) := by
      rw [text,keyed]
      simp
    have second : pre ++ (k ++ TE_COMPOUND_KEY_SEP :: (p.value ++ (p.close ++ post))) =
        (pre ++ k) ++ TE_COMPOUND_KEY_SEP :: (p.value ++ (p.close ++ post)) := by simp
    have third : pre ++ (k ++ TE_COMPOUND_KEY_SEP :: (p.value ++ (p.close ++ post))) =
        (pre ++ k ++ [TE_COMPOUND_KEY_SEP]) ++ (p.value ++ (p.close ++ post)) := by simp
    rw [whole] at limit ⊢
    rw [span_text plain stops]
    have skipped := @skip_sep (pre ++ k) TE_COMPOUND_KEY_SEP (p.value ++ (p.close ++ post))
    rw [← second,length_append] at skipped
    have spanned := @span_text (pre ++ k ++ [TE_COMPOUND_KEY_SEP]) _ _ _ plain2 (close_stops ends)
    rw [← third,length_append,length_append,length_singleton] at spanned
    have ended := item_end ends p.value (pre ++ k ++ [TE_COMPOUND_KEY_SEP])
    have advanced := @advance_cursor (pre ++ k ++ [TE_COMPOUND_KEY_SEP]) (p.value ++ (p.close ++ post)) p.value.length (by simp)
    rw [Piece.close] at third
    rw [← Piece.close] at ended third
    rw [← third,length_append,length_append,length_singleton] at ended advanced
    simp only [List.headD_cons,if_true]
    rw [advance_cursor (by simp),skipped,spanned,advanced,ended]
    have number : pre.length+k.length+1+(p.value ++ p.close).length = pre.length+p.text.length := by
      rw [text,keyed]
      simp only [length_append,length_singleton]
      omega
    rw [number,limit,keyed]
    simp [Piece.field,key,Nat.add_assoc]
end

variable {comp : CStr}

section
variable {pre post : CStr} {p : Piece} {ps : List Piece} {key : Option CStr} {fuel : Nat}

def texts (ps : List Piece) : CStr := ps.flatMap Piece.text
/-- The pieces can be read one after the other: only the last one may lack its separator. -/
def Readable : List Piece → Prop
  | [] => True
  | p :: ps => p.Clean ∧ p.text ≠ [] ∧ (p.closed = true ∨ ps = []) ∧ Readable ps

@[simp] theorem texts_nil : texts [] = [] := rfl
@[simp] theorem texts_cons (p : Piece) (ps : List Piece) : texts (p :: ps) = p.text ++ texts ps := rfl
@[simp] theorem texts_append (ps qs : List Piece) : texts (ps ++ qs) = texts ps ++ texts qs := flatMap_append
theorem texts_length (readable : Readable ps) : ps.length ≤ (texts ps).length := by
  induction ps with
  | nil => exact le_rfl
  | cons p ps ih =>
    obtain ⟨_,more,_,rest⟩ := readable
    have positive := length_pos_iff.mpr more
    have later := ih rest
    rw [texts_cons,length_append,length_cons]
    omega
theorem Readable.ends (readable : Readable (p :: ps)) : Ends p (texts ps) := by
  intro closed c head
  rcases readable.2.2.1 with yes | none'
  · rw [closed] at yes
    cases yes
  · subst none'
    cases head
theorem Readable.clean (readable : Readable ps) : ∀ p ∈ ps, p.Clean := by
  induction ps with
  | nil => simp
  | cons p ps ih => exact forall_mem_cons.mpr ⟨readable.1,ih readable.2.2.2⟩
variable {qs : List Piece}

theorem Readable.append_left (readable : Readable (ps ++ qs)) : Readable ps := by
  induction ps with
  | nil => trivial
  | cons p ps ih =>
    obtain ⟨clean,more,last,rest⟩ := readable
    exact ⟨clean,more,last.imp_right fun none' => (append_eq_nil_iff.mp none').1,ih rest⟩
theorem Readable.front_closed (readable : Readable (ps ++ qs)) (more : qs ≠ []) : ∀ p ∈ ps, p.closed = true := by
  induction ps with
  | nil => simp
  | cons p ps ih =>
    refine forall_mem_cons.mpr ⟨readable.2.2.1.resolve_right fun none' => more (append_eq_nil_iff.mp none').2,ih readable.2.2.2⟩
theorem Readable.append (readable : Readable ps) (closed : ∀ p ∈ ps, p.closed = true) (rest : Readable qs) : Readable (ps ++ qs) := by
  induction ps with
  | nil => exact rest
  | cons p ps ih =>
    obtain ⟨own,others⟩ := forall_mem_cons.mp closed
    exact ⟨readable.1,readable.2.1,.inl own,ih readable.2.2.2 others⟩
theorem Readable.append_right (readable : Readable (ps ++ qs)) : Readable qs := by
  induction ps with
  | nil => exact readable
  | cons p ps ih => exact ih readable.2.2.2
theorem parse_readable (readable : Readable (p :: ps)) :
    parse_next_item (pre ++ texts (p :: ps)) ⟨pre.length,0⟩ =
      some ⟨⟨pre.length,p.text.length⟩,p.field pre.length,⟨pre.length+p.keyText.length,p.value.length⟩⟩ :=
  parse_piece readable.1.parsed readable.ends (fun none' => readable.2.1 (append_eq_nil_iff.mp none').1)
theorem parse_ended (pre : CStr) : parse_next_item (pre ++ texts []) ⟨pre.length,0⟩ = none := by simp [parse_end]
theorem Piece.Parsed.no_zero (parsed : p.Parsed) : '\x00' ∉ p.text := by
  have closing : '\x00' ∉ (if p.closed then [TE_COMPOUND_ITEM_SEP] else []) := by cases p.closed <;> decide
  have value : '\x00' ∉ p.value := fun member => (parsed.value _ member).1 rfl
  cases keyed : p.key with
  | none => simp [Piece.text,Piece.keyText,keyed,value,closing]
  | some k =>
    have key : '\x00' ∉ k := fun member => (parsed.key k keyed _ member).1 rfl
    have sep : '\x00' ≠ TE_COMPOUND_KEY_SEP := by decide
    simp [Piece.text,Piece.keyText,keyed,value,closing,key,sep]
theorem texts_no_zero (readable : Readable ps) : '\x00' ∉ texts ps := by
  induction ps with
  | nil => exact not_mem_nil
  | cons p ps ih =>
    rw [texts_cons,mem_append,not_or]
    exact ⟨readable.1.parsed.no_zero,ih readable.2.2.2⟩
theorem texts_eq_nil (readable : Readable ps) (empty : texts ps = []) : ps = [] := by
  have short := texts_length readable
  rw [empty] at short
  exact length_eq_zero_iff.mp (le_zero.mp short)
theorem keyText_some {k : CStr} (keyed : p.key = some k) : p.keyText = k ++ [TE_COMPOUND_KEY_SEP] := by rw [Piece.keyText,keyed]; rfl
theorem field_in (pre post : CStr) (p : Piece) : FieldIn (pre ++ (p.text ++ post)) (p.field pre.length) := by
  intro sub found
  obtain ⟨k,keyed,rfl⟩ := of_map found
  refine cursor_valid ?_
  rw [Piece.text,keyText_some keyed]
  simp only [length_append]
  omega
theorem field_key (pre post : CStr) (p : Piece) : fieldKey (pre ++ (p.text ++ post)) (p.field pre.length) = p.order := by
  cases keyed : p.key with
  | none =>
    rw [Piece.field,Piece.order,keyed]
    rfl
  | some k =>
    rw [Piece.field,Piece.order,keyed]
    refine congrArg some ?_
    rw [subText,drop_left,Piece.text,keyText_some keyed,append_assoc,append_assoc,append_assoc,take_left]
theorem field_plain (clean : p.Clean) (pre post : CStr) (sub : TeSubstring) (found : p.field pre.length = some sub) :
    '\x00' ∉ subText (pre ++ (p.text ++ post)) sub := by
  obtain ⟨k,keyed,rfl⟩ := of_map found
  have covered := field_key pre post p
  rw [Piece.field,Piece.order,keyed] at covered
  have same : subText (pre ++ (p.text ++ post)) ⟨pre.length,k.length⟩ = k := some.inj covered
  rw [same]
  exact fun member => (clean.key k keyed _ member).1 rfl
theorem value_text (pre post : CStr) (p : Piece) : subText (pre ++ (p.text ++ post)) ⟨pre.length+p.keyText.length,p.value.length⟩ = p.value := by
  grind [Piece.text,subText]
theorem whole_cons (pre : CStr) (p : Piece) (ps : List Piece) : pre ++ texts (p :: ps) = pre ++ p.text ++ texts ps := by simp
theorem advance_piece (pre : CStr) (p : Piece) (post : CStr) :
    te_substring_advance (pre ++ (p.text ++ post)) ⟨pre.length,p.text.length⟩ = ⟨(pre ++ p.text).length,0⟩ := by
  rw [advance_cursor (by simp),length_append]
theorem value_cons (pre : CStr) (p : Piece) (ps : List Piece) :
    subText (pre ++ texts (p :: ps)) ⟨pre.length+p.keyText.length,p.value.length⟩ = p.value := value_text pre (texts ps) p
theorem own_field (pre : CStr) (p : Piece) (ps : List Piece) :
    FieldIn (pre ++ texts (p :: ps)) (p.field pre.length) ∧ fieldKey (pre ++ texts (p :: ps)) (p.field pre.length) = p.order :=
  ⟨field_in pre (texts ps) p,field_key pre (texts ps) p⟩
theorem advance_cons (pre : CStr) (p : Piece) (ps : List Piece) :
    te_substring_advance (pre ++ texts (p :: ps)) ⟨pre.length,p.text.length⟩ = ⟨(pre ++ p.text).length,0⟩ := advance_piece pre p (texts ps)
/-- The key of the item at the cursor against a string. -/
theorem compare_piece (readable : Readable (p :: ps)) (pre : CStr) (key : Option CStr) :
    Orders (te_substring_compare_str (pre ++ texts (p :: ps)) (p.field pre.length) key) p.order (keyOrder key) := by
  have orders := compare_str_orders (field_in pre (texts ps) p) (field_plain readable.1 pre (texts ps)) key
  rwa [field_key] at orders

/-- The values with the key. -/
def valuesOf (key : Option CStr) (ps : List Piece) : List CStr := (withKey Piece.order (keyOrder key) ps).map Piece.value

theorem valuesOf_cons_same (same : p.order = keyOrder key) : valuesOf key (p :: ps) = p.value :: valuesOf key ps := by
  rw [valuesOf,valuesOf,withKey_cons_same same,map_cons]
theorem valuesOf_cons_other (other : p.order ≠ keyOrder key) : valuesOf key (p :: ps) = valuesOf key ps := by
  rw [valuesOf,valuesOf,withKey_cons_other other]
theorem valuesOf_behind (sorted : SortedBy Piece.order (p :: ps)) (greater : (keyOrder key) < p.order) : valuesOf key (p :: ps) = [] := by
  refine List.map_eq_nil_iff.mpr (withKey_none fun q member => ne_of_gt ?_)
  rcases mem_cons.mp member with rfl | later
  · exact greater
  · exact greater.trans_le (sorted.head_le q later)
theorem extractLoop_spec (readable : Readable ps) (sorted : SortedBy Piece.order ps) (enough : ps.length < fuel) (pre : CStr) (idx : Nat) :
    extractLoop (pre ++ texts ps) key fuel ⟨pre.length,0⟩ idx = some (valuesOf key ps)[idx]? := by
  induction ps generalizing pre idx fuel with
  | nil =>
    obtain ⟨fuel,rfl⟩ := succ_of_lt enough
    rw [extractLoop,parse_ended]
    rfl
  | cons p ps ih =>
    obtain ⟨fuel,rfl⟩ := succ_of_lt enough
    have orders := compare_piece readable pre key
    have rest := ih readable.2.2.2 sorted.tail (lt_of_succ_lt_succ enough) (pre ++ p.text)
    have value := value_cons pre p ps
    have next := advance_cons pre p ps
    rw [← whole_cons] at rest
    rw [extractLoop,parse_readable readable]
    simp only [value,next]
    generalize te_substring_compare_str (pre ++ texts (p :: ps)) (p.field pre.length) key = cmp at orders ⊢
    rcases lt_trichotomy p.order (keyOrder key) with less | same | more
    · have negative := orders.2.mpr less
      rw [if_neg (by omega),if_neg (by omega),if_neg (by omega),rest,valuesOf_cons_other less.ne]
    · have zero := orders.zero.mpr same
      rw [if_neg (by omega),valuesOf_cons_same same]
      cases idx with
      | zero => rw [if_pos ⟨zero,rfl⟩]; rfl
      | succ idx =>
        rw [if_neg (by omega),if_pos zero,rest]
        rfl
    · rw [if_pos (orders.1.mpr more),valuesOf_behind sorted more]
      rfl
theorem countLoop_spec (readable : Readable ps) (sorted : SortedBy Piece.order ps) (enough : ps.length < fuel) (pre : CStr) (count : Nat) :
    countLoop (pre ++ texts ps) key fuel ⟨pre.length,0⟩ count = some (count+(valuesOf key ps).length) := by
  induction ps generalizing pre count fuel with
  | nil =>
    obtain ⟨fuel,rfl⟩ := succ_of_lt enough
    rw [countLoop,parse_ended]
    rfl
  | cons p ps ih =>
    obtain ⟨fuel,rfl⟩ := succ_of_lt enough
    have orders := compare_piece readable pre key
    have rest := ih readable.2.2.2 sorted.tail (lt_of_succ_lt_succ enough) (pre ++ p.text)
    have next := advance_cons pre p ps
    rw [← whole_cons] at rest
    rw [countLoop,parse_readable readable]
    simp only [next]
    generalize te_substring_compare_str (pre ++ texts (p :: ps)) (p.field pre.length) key = cmp at orders ⊢
    rcases lt_trichotomy p.order (keyOrder key) with less | same | more
    · have negative := orders.2.mpr less
      rw [if_neg (by omega),if_neg (by omega),rest,valuesOf_cons_other less.ne]
    · have zero := orders.zero.mpr same
      rw [if_neg (by omega),if_pos zero,rest,valuesOf_cons_same same,length_cons]
      congr 1
      omega
    · rw [if_pos (orders.1.mpr more),valuesOf_behind sorted more]
      rfl

/-- `te_compound_count` and `te_compound_extract` give these values for the key. -/
def Stores (comp : CStr) (key : Option CStr) (values : List CStr) : Prop :=
  te_compound_count comp key = some values.length ∧ ∀ idx, te_compound_extract comp key idx = some values[idx]?

theorem stores_texts (readable : Readable ps) (sorted : SortedBy Piece.order ps) (key : Option CStr) : Stores (texts ps) key (valuesOf key ps) := by
  have enough := lt_succ_of_le (texts_length readable)
  constructor
  · have counted := @countLoop_spec _ key _ readable sorted enough [] 0
    rwa [nil_append,Nat.zero_add] at counted
  · exact fun idx => @extractLoop_spec _ key _ readable sorted enough [] idx
theorem Stores.unique {first second : List CStr} (one : Stores comp key first) (two : Stores comp key second) : first = second :=
  List.ext_getElem? fun idx => some.inj ((one.2 idx).symm.trans (two.2 idx))
end

section
variable {pre : CStr} {p : Piece} {ps : List Piece} {fuel count : Nat} {prev : Option TeSubstring}

variable {rest : CStr}

theorem head_dropWhile {q : Char → Bool} {c : Char} (head : c ∈ (rest.dropWhile q).head?) : q c = false := by
  cases tail : rest.dropWhile q with
  | nil => rw [tail] at head; cases head
  | cons d tail' =>
    obtain rfl : d = c := by simpa [tail] using head
    have stops := List.head_dropWhile_not q (l := rest) (by rw [tail]; exact cons_ne_nil _ _)
    simpa [tail] using stops
/-- A value up to the separator that closes its item, or up to the end or a zero. -/
theorem close_piece (key : Option CStr) (rest : CStr) : ∃ value closed post, rest = value ++ (Piece.close ⟨key,value,closed⟩ ++ post) ∧
    (∀ c ∈ value, c ≠ '\x00' ∧ c ≠ TE_COMPOUND_ITEM_SEP) ∧ Ends ⟨key,value,closed⟩ post := by
  have all : ∀ c ∈ rest.takeWhile (fun c => c ≠ '\x00' ∧ c ≠ TE_COMPOUND_ITEM_SEP), c ≠ '\x00' ∧ c ≠ TE_COMPOUND_ITEM_SEP :=
    fun c member => by simpa using List.mem_takeWhile_imp member
  have split := takeWhile_append_dropWhile (p := fun c => decide (c ≠ '\x00' ∧ c ≠ TE_COMPOUND_ITEM_SEP)) (l := rest)
  have stop := fun c => @head_dropWhile rest (fun c => decide (c ≠ '\x00' ∧ c ≠ TE_COMPOUND_ITEM_SEP)) c
  generalize rest.takeWhile (fun c => decide (c ≠ '\x00' ∧ c ≠ TE_COMPOUND_ITEM_SEP)) = value at all split
  generalize rest.dropWhile (fun c => decide (c ≠ '\x00' ∧ c ≠ TE_COMPOUND_ITEM_SEP)) = tail at split stop
  by_cases sep : tail.head? = some TE_COMPOUND_ITEM_SEP
  · obtain ⟨post,rfl⟩ : ∃ post, tail = TE_COMPOUND_ITEM_SEP :: post := ⟨tail.tail,List.eq_cons_of_mem_head? sep⟩
    exact ⟨value,true,post,split.symm,all,fun open' => by cases open'⟩
  · refine ⟨value,false,tail,split.symm,all,fun _ c head => ?_⟩
    have stopped := stop c head
    simp only [ne_eq,decide_eq_false_iff_not,not_and_or,not_not] at stopped
    exact stopped.resolve_right fun equal => sep (equal ▸ head)
/-- Every text can be cut behind its first item. -/
theorem first_piece (rest : CStr) : ∃ p post, rest = p.text ++ post ∧ p.Parsed ∧ Ends p post := by
  have all : ∀ c ∈ rest.takeWhile (fun c => c ≠ '\x00' ∧ c ≠ TE_COMPOUND_ITEM_SEP ∧ c ≠ TE_COMPOUND_KEY_SEP), Plain c :=
    fun c member => by simpa [Plain] using List.mem_takeWhile_imp member
  have split := takeWhile_append_dropWhile (p := fun c => decide (c ≠ '\x00' ∧ c ≠ TE_COMPOUND_ITEM_SEP ∧ c ≠ TE_COMPOUND_KEY_SEP)) (l := rest)
  have stop := fun c => @head_dropWhile rest (fun c => decide (c ≠ '\x00' ∧ c ≠ TE_COMPOUND_ITEM_SEP ∧ c ≠ TE_COMPOUND_KEY_SEP)) c
  generalize rest.takeWhile (fun c => decide (c ≠ '\x00' ∧ c ≠ TE_COMPOUND_ITEM_SEP ∧ c ≠ TE_COMPOUND_KEY_SEP)) = front at all split
  generalize rest.dropWhile (fun c => decide (c ≠ '\x00' ∧ c ≠ TE_COMPOUND_ITEM_SEP ∧ c ≠ TE_COMPOUND_KEY_SEP)) = tail at split stop
  by_cases keyed : tail.head? = some TE_COMPOUND_KEY_SEP
  · obtain ⟨behind,rfl⟩ : ∃ behind, tail = TE_COMPOUND_KEY_SEP :: behind := ⟨tail.tail,List.eq_cons_of_mem_head? keyed⟩
    obtain ⟨value,closed,post,whole,plain,ends⟩ := close_piece (some front) behind
    refine ⟨⟨some front,value,closed⟩,post,?_,⟨fun key same => some.inj same ▸ all,plain,nofun⟩,ends⟩
    rw [← split,whole]
    simp [Piece.text,Piece.keyText,Piece.close]
  · have text (closed : Bool) : (⟨none,front,closed⟩ : Piece).text = front ++ Piece.close ⟨none,front,closed⟩ := by
      simp [Piece.text,Piece.keyText,Piece.close]
    have parsed (closed : Bool) : (⟨none,front,closed⟩ : Piece).Parsed :=
      ⟨nofun,fun c member => ⟨(all c member).1,(all c member).2.1⟩,fun _ member => (all _ member).2.2 rfl⟩
    by_cases sep : tail.head? = some TE_COMPOUND_ITEM_SEP
    · obtain ⟨post,rfl⟩ : ∃ post, tail = TE_COMPOUND_ITEM_SEP :: post := ⟨tail.tail,List.eq_cons_of_mem_head? sep⟩
      exact ⟨⟨none,front,true⟩,post,by rw [text,← split]; simp [Piece.close],parsed true,fun open' => by cases open'⟩
    · refine ⟨⟨none,front,false⟩,tail,by rw [text,← split]; simp [Piece.close],parsed false,fun _ c head => ?_⟩
      have stopped := stop c head
      simp only [ne_eq,decide_eq_false_iff_not,not_and_or,not_not] at stopped
      rcases stopped with zero | item | key
      · exact zero
      · exact absurd (item ▸ head) sep
      · exact absurd (key ▸ head) keyed
theorem validateLoop_spec (readable : Readable ps) (sorted : SortedBy Piece.order ps) (enough : ps.length < fuel)
    (before : FieldIn (pre ++ texts ps) prev) (least : ∀ p ∈ ps, fieldKey (pre ++ texts ps) prev ≤ p.order) :
    validateLoop (pre ++ texts ps) fuel ⟨pre.length,0⟩ prev count = some (some (count+ps.length)) := by
  induction ps generalizing pre count fuel prev with
  | nil =>
    obtain ⟨fuel,rfl⟩ := succ_of_lt enough
    rw [validateLoop,parse_ended]
    rfl
  | cons p ps ih =>
    obtain ⟨fuel,rfl⟩ := succ_of_lt enough
    obtain ⟨inside,own⟩ := own_field pre p ps
    have orders := compare_orders before inside
    have value := value_cons pre p ps
    have next := advance_cons pre p ps
    have rest := @ih (pre ++ p.text) _ (count+1) _ readable.2.2.2 sorted.tail (lt_of_succ_lt_succ enough)
      (by rw [← whole_cons]; exact inside) (by rw [← whole_cons,own]; exact sorted.head_le)
    rw [← whole_cons] at rest
    rw [validateLoop,parse_readable readable]
    simp only [value,next]
    rw [own] at orders
    rw [if_neg (fun positive => absurd (orders.1.mp positive) (not_lt_of_ge (least p mem_cons_self))),
      if_neg (fun member => (readable.1.value _ member).2.2 rfl),rest,length_cons]
    congr 2
    omega
/-- Where validation succeeds, there are pieces in order, and only the last one may lack its separator. -/
theorem validateLoop_pieces {n : Nat} (before : FieldIn (pre ++ rest) prev)
    (accepted : validateLoop (pre ++ rest) fuel ⟨pre.length,0⟩ prev count = some (some n)) :
    ∃ ps, rest = texts ps ∧ Readable ps ∧ SortedBy Piece.order ps ∧ n = count+ps.length ∧ ∀ p ∈ ps, fieldKey (pre ++ rest) prev ≤ p.order := by
  induction fuel generalizing pre rest prev count with
  | zero => cases accepted
  | succ fuel ih =>
    by_cases empty : rest = []
    · subst empty
      have ended := parse_ended pre
      rw [texts_nil] at ended
      rw [validateLoop,ended] at accepted
      obtain rfl := some.inj (some.inj accepted)
      exact ⟨[],rfl,trivial,List.Pairwise.nil,rfl,by simp⟩
    · obtain ⟨p,post,rfl,parsed,ends⟩ := first_piece rest
      have inside := field_in pre post p
      have orders := compare_orders before inside
      rw [field_key] at orders
      rw [validateLoop,parse_piece parsed ends empty] at accepted
      simp only [value_text,advance_piece] at accepted
      by_cases greater : 0 < te_substring_compare (pre ++ (p.text ++ post)) prev (pre ++ (p.text ++ post)) (p.field pre.length)
      · rw [if_pos greater] at accepted
        cases accepted
      · by_cases separated : TE_COMPOUND_KEY_SEP ∈ p.value
        · rw [if_neg greater,if_pos separated] at accepted
          cases accepted
        · rw [if_neg greater,if_neg separated] at accepted
          have own := field_key pre post p
          rw [← append_assoc] at accepted inside own
          obtain ⟨ps,rfl,readable,sorted,number,least⟩ := ih inside accepted
          rw [own] at least
          have order : fieldKey (pre ++ (p.text ++ texts ps)) prev ≤ p.order := le_of_not_gt fun more => greater (orders.1.mpr more)
          -- a zero behind an open item would be text of a later one
          have last : p.closed = false → ps = [] := fun open' => texts_eq_nil readable (by
            cases text : texts ps with
            | nil => rfl
            | cons c tail =>
              have zero := ends open' c (by rw [text]; rfl)
              exact absurd (by rw [text,zero]; exact mem_cons_self) (texts_no_zero readable))
          refine ⟨p :: ps,rfl,⟨⟨parsed.key,fun c member => ⟨(parsed.value c member).1,(parsed.value c member).2,fun equal => separated (equal ▸ member)⟩⟩,?_,?_,readable⟩,
            pairwise_cons.mpr ⟨least,sorted⟩,by rw [number,length_cons]; omega,forall_mem_cons.mpr ⟨order,fun q member => order.trans (least q member)⟩⟩
          · simp_all [Piece.text]
          · grind
/-- All pieces have their separator, unless there is a single one. -/
def Complete (ps : List Piece) : Prop := (∀ p ∈ ps, p.closed = true) ∨ ps.length ≤ 1

theorem open_text_last (clean : p.Clean) (closed : p.closed = false) : p.text.getLast? ≠ some TE_COMPOUND_ITEM_SEP := by
  intro last
  have member := mem_of_getLast? last
  have sep : TE_COMPOUND_ITEM_SEP ≠ TE_COMPOUND_KEY_SEP := by decide
  rw [Piece.text,closed] at member
  simp only [false_eq_true,if_false,append_nil,mem_append] at member
  rcases member with key | value
  · cases keyed : p.key with
    | none => simp [Piece.keyText,keyed] at key
    | some k =>
      rw [keyText_some keyed] at key
      rcases mem_append.mp key with inner | outer
      · exact (clean.key k keyed _ inner).2.1 rfl
      · exact sep (mem_singleton.mp outer)
  · exact (clean.value _ value).2.1 rfl
/-- The last character tells whether all pieces have their separator. -/
theorem last_closed (readable : Readable ps) (more : ps ≠ []) :
    (texts ps).getLast? = some TE_COMPOUND_ITEM_SEP ↔ ∀ p ∈ ps, p.closed = true := by
  induction ps with
  | nil => exact absurd rfl more
  | cons p ps ih =>
    obtain ⟨clean,text,own,rest⟩ := readable
    by_cases single : ps = []
    · subst single
      rw [texts_cons,texts_nil,append_nil]
      cases closed : p.closed with
      | true => simp [Piece.text,closed]
      | false => simpa [closed] using open_text_last clean closed
    · have some' : texts ps ≠ [] := fun none' => single (texts_eq_nil rest none')
      rw [texts_cons,List.getLast?_append_of_ne_nil _ some',ih rest single,forall_mem_cons]
      exact ⟨fun later => ⟨own.resolve_right single,later⟩,And.right⟩
theorem charAt_last (more : comp ≠ []) (c : Char) : charAt comp (comp.length-1) = c ↔ comp.getLast? = some c := by
  rw [charAt,← List.getLast?_eq_getElem?,List.getLast?_eq_some_getLast more,getD_some,some_inj]
theorem validate_texts (readable : Readable ps) (sorted : SortedBy Piece.order ps) :
    te_compound_validate (texts ps) = some true ↔ Complete ps := by
  have looped := @validateLoop_spec [] _ _ 0 none readable sorted (lt_succ_of_le (texts_length readable))
    (fun _ found => nomatch found) fun p _ => bot_le
  rw [nil_append,Nat.zero_add,length_nil] at looped
  rw [te_compound_validate,looped]
  simp only [map_some,some_inj,decide_eq_true_eq,Complete]
  by_cases many : 1 < ps.length
  · have more : ps ≠ [] := by
      rintro rfl
      exact absurd many (by decide)
    have some' : texts ps ≠ [] := fun none' => more (texts_eq_nil readable none')
    rw [ne_eq,charAt_last some',last_closed readable more]
    constructor
    · grind
    · rintro (closed | few) ⟨_,open'⟩
      · exact open' closed
      · omega
  · exact ⟨fun _ => .inr (by omega),fun _ both => many both.1⟩
/-- The well-formed strings are those that consist of such pieces. -/
theorem validate_pieces (valid : te_compound_validate comp = some true) :
    ∃ ps, comp = texts ps ∧ Readable ps ∧ SortedBy Piece.order ps ∧ Complete ps := by
  have whole := valid
  rw [te_compound_validate] at valid
  obtain ⟨result,looped,accepted⟩ := of_map valid
  cases result with
  | none => cases accepted
  | some n =>
    obtain ⟨ps,rfl,readable,sorted,_⟩ := @validateLoop_pieces [] _ _ none comp _ (fun _ found => nomatch found) looped
    exact ⟨ps,rfl,readable,sorted,(validate_texts readable sorted).mp whole⟩
end

end TestEnvironment.Tools
