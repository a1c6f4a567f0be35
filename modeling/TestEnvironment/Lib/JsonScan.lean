import TestEnvironment.Lib.Json

/-!
Where the strings in a JSON text end, and what follows for objects of strings whose keys are written
as they are: in a text of such an object no key needs an escape.
-/
namespace TestEnvironment.Lib.Json

/-- The text before the quotation mark that ends a string. -/
def beforeQuote : CStr → CStr
  | [] => []
  | [c] => if c = '"' then [] else [c]
  | c :: d :: t => if c = '"' then [] else if c = '\\' then c :: d :: beforeQuote t else c :: beforeQuote (d :: t)

section
variable {s s' t t' rest rest' k b v : CStr} {c : Char}

theorem beforeQuote_quote (t : CStr) : beforeQuote ('"' :: t) = [] := by
  cases t <;> rfl
theorem beforeQuote_escape (e : Char) (t : CStr) : beforeQuote ('\\' :: e :: t) = '\\' :: e :: beforeQuote t := by
  rw [beforeQuote,if_neg (by decide),if_pos rfl]
theorem beforeQuote_other (quote : c ≠ '"') (backslash : c ≠ '\\') (t : CStr) : beforeQuote (c :: t) = c :: beforeQuote t := by
  cases t with
  | nil =>
    show (if c = '"' then [] else [c]) = [c]
    rw [if_neg quote]
  | cons d t => rw [beforeQuote,if_neg quote,if_neg backslash]
theorem hexValue_other {n : Nat} (digit : hexValue c = some n) : c ≠ '"' ∧ c ≠ '\\' := by
  constructor
  · rintro rfl
    have none' : hexValue '"' = none := by decide
    exact absurd (none'.symm.trans digit) (some_ne_none n).symm
  · rintro rfl
    have none' : hexValue '\\' = none := by decide
    exact absurd (none'.symm.trans digit) (some_ne_none n).symm
theorem Unit16.beforeQuote {n : Nat} (unit : Unit16 t n) (rest : CStr) : beforeQuote (t ++ rest) = t ++ beforeQuote rest := by
  obtain ⟨d1,d2,d3,d4,_,_,_,_,rfl,h1,h2,h3,h4,-⟩ := unit
  obtain ⟨⟨q1,b1⟩,⟨q2,b2⟩,⟨q3,b3⟩,⟨q4,b4⟩⟩ := And.intro (hexValue_other h1) (And.intro (hexValue_other h2) (And.intro (hexValue_other h3) (hexValue_other h4)))
  simp only [cons_append,nil_append]
  rw [beforeQuote_other q1 b1,beforeQuote_other q2 b2,beforeQuote_other q3 b3,beforeQuote_other q4 b4]
/-- What stands for a string contains no end of it. -/
theorem Chars.beforeQuote (chars : Chars s t) (rest : CStr) : beforeQuote (t ++ '"' :: rest) = t := by
  induction chars with
  | nil => exact beforeQuote_quote rest
  | plain plain _ ih => rw [cons_append,beforeQuote_other plain.2.1 plain.2.2,ih]
  | escape _ _ ih => rw [cons_append,cons_append,beforeQuote_escape,ih]
  | unit unit _ _ ih => simp [unit.beforeQuote,ih,beforeQuote_escape]
  | pair high _ low _ _ ih => simp [high.beforeQuote,low.beforeQuote,ih,beforeQuote_escape]
/-- Two readings of a string end at the same place. -/
theorem Chars.end_unique (chars : Chars s t) (chars' : Chars s' t') (same : t ++ '"' :: rest = t' ++ '"' :: rest') : t = t' ∧ rest = rest' := by
  have text : t = t' := by rw [← chars.beforeQuote rest,same,chars'.beforeQuote]
  subst text
  exact ⟨rfl,(cons.inj (append_cancel_left same)).2⟩

/-- A text without quotation marks lies before the first one. -/
theorem unquoted_front {x y z : CStr} (none' : '"' ∉ x) (same : x ++ y = k ++ '"' :: z) : ∃ k', k = x ++ k' ∧ y = k' ++ '"' :: z := by
  obtain ⟨k',longer,rest⟩ | ⟨c,shorter,rest⟩ := List.append_eq_append_iff.mp same
  · exact ⟨k',longer,rest⟩
  · cases c with
    | nil => grind
    | cons d c => grind
/-- What is left behind a shorter front. -/
theorem backlog {p q : CStr} (same : p ++ s = q ++ k) (shorter : p.length ≤ q.length) : s = q.drop p.length ++ k := by
  have dropped := congrArg (List.drop p.length) same
  rwa [drop_left,drop_append_of_le_length shorter] at dropped
theorem utf8_length (n : Nat) : (utf8 n).length ≤ 4 := by
  rw [utf8]
  split_ifs <;> simp
theorem Unit16.unquoted {n : Nat} (unit : Unit16 t n) : '"' ∉ t ∧ t.length = 4 := by
  obtain ⟨d1,d2,d3,d4,_,_,_,_,rfl,h1,h2,h3,h4,-⟩ := unit
  refine ⟨?_,rfl⟩
  simp [Ne.symm (hexValue_other h1).1,Ne.symm (hexValue_other h2).1,Ne.symm (hexValue_other h3).1,Ne.symm (hexValue_other h4).1]
/-- A string whose text is the string itself, with a colon and another string behind it, needs no escape: once
an escape has been read, characters that have been passed are still to be found. -/
theorem Chars.raw (chars : Chars s t) (split : s = b ++ k) (same : t ++ '"' :: rest = k ++ '"' :: ':' :: '"' :: v) :
    b = [] ∧ ∀ c ∈ k, Plain c := by
  have behind : ∀ {x : CStr} {b : CStr}, x ≠ [] → ¬ (b ++ x = []) := fun more none' => more (append_eq_nil_iff.mp none').2
  induction chars generalizing b k with
  | nil => grind
  | @plain c s t plain chars ih =>
    obtain ⟨k',rfl,next⟩ := @unquoted_front k [c] (t ++ '"' :: rest) _ (by simp [Ne.symm plain.2.1]) same
    cases b with
    | nil => grind
    | cons d b => grind
  | @escape c e s t escape chars ih =>
    obtain ⟨k1,rfl,next⟩ := @unquoted_front k ['\\'] (e :: t ++ '"' :: rest) _ (by decide) same
    cases k1 with
    | nil =>
      -- the quotation mark behind the text is escaped, and the string goes on up to the next one
      obtain ⟨rfl,later⟩ := cons.inj next
      obtain rfl : c = '"' := by cases escape; rfl
      have text : t = [':'] := by
        have ended := chars.beforeQuote rest
        have shown : t ++ '"' :: rest = ':' :: '"' :: v := later
        rw [shown,beforeQuote_other (by decide) (by decide),beforeQuote_quote] at ended
        exact ended.symm
      rw [text] at chars
      have only : s = [':'] := by
        cases chars with
        | plain _ chars =>
          cases chars
          rfl
      rw [only] at split
      cases b with
      | nil => exact absurd (cons.inj split).1 (by decide)
      | cons d b =>
        have last : ['"',':'].getLast? = (d :: b ++ ['\\']).getLast? := by rw [split,append_nil]
        rw [getLast?_concat] at last
        exact absurd last (by decide)
    | cons e' k' =>
      obtain ⟨rfl,later⟩ := cons.inj next
      cases b with
      | nil =>
        have left : s = [e] ++ k' := (cons.inj split).2
        exact absurd (ih left later).1 (cons_ne_nil _ _)
      | cons d b =>
        have left : s = b ++ ['\\',e] ++ k' := (cons.inj split).2.trans (append_assoc b ['\\',e] k').symm
        exact absurd (ih left later).1 (behind (cons_ne_nil _ _))
  | @unit h s t n unit single chars ih =>
    obtain ⟨unquoted,length⟩ := unit.unquoted
    obtain ⟨k',rfl,next⟩ := @unquoted_front k ('\\' :: 'u' :: h) (t ++ '"' :: rest) _ (by simp [unquoted])
      (by rw [← same]; simp)
    have short := utf8_length n
    rw [← append_assoc] at split
    have left := backlog split (by simp; omega)
    have more := congrArg List.length (ih left next).1
    simp at more
    omega
  | @pair h l s t n m high _ low _ chars ih =>
    obtain ⟨unquoted,length⟩ := high.unquoted
    obtain ⟨unquoted',length'⟩ := low.unquoted
    obtain ⟨k',rfl,next⟩ := @unquoted_front k ('\\' :: 'u' :: h ++ '\\' :: 'u' :: l) (t ++ '"' :: rest) _ (by simp [unquoted,unquoted'])
      (by rw [← same]; simp)
    have short := utf8_length (0x10000+n*0x400+m)
    rw [← append_assoc] at split
    have left := backlog split (by simp; omega)
    have more := congrArg List.length (ih left next).1
    simp at more
    omega
end

section
variable {m : CStr × Value} {ms : List (CStr × Value)} {t t1 k v x rest rest' : CStr}

theorem Members.single (members : Members [m] t) : Member m t := by
  generalize whole : [m] = all at members
  cases members with
  | one member =>
    cases whole
    exact member
  | @snoc before w t u first last =>
    have empty : before = [] := by
      cases before with
      | nil => rfl
      | cons y ys => simp at whole
    rw [empty] at first
    generalize no_members : ([] : List (CStr × Value)) = none_there at first
    cases first <;> simp at no_members
/-- A text of members starts with a text of the first one. -/
theorem Members.uncons (members : Members (m :: ms) t) :
    (ms = [] ∧ Member m t) ∨ ∃ t1 t2, t = t1 ++ ',' :: t2 ∧ Member m t1 ∧ Members ms t2 := by
  induction ms using List.reverseRecOn generalizing t with
  | nil => exact .inl ⟨rfl,members.single⟩
  | append_singleton ms last ih =>
    generalize whole : m :: (ms ++ [last]) = all at members
    cases members with
    | one => simp at whole
    | @snoc before last' front back first member =>
      obtain ⟨rfl,same⟩ := append_inj' (show m :: ms ++ [last] = before ++ [last'] from whole) rfl
      obtain rfl := (cons.inj same).1
      obtain ⟨rfl,only⟩ | ⟨t1,t2,rfl,here,others⟩ := ih first
      · exact .inr ⟨front,back,rfl,only,.one member⟩
      · exact .inr ⟨t1,t2 ++ ',' :: back,by simp,here,.snoc others member⟩
/-- A member with its key as it is and a string, and those behind the first one. -/
def rawMember (m : CStr × CStr) : CStr := '"' :: m.1 ++ '"' :: ':' :: '"' :: m.2 ++ ['"']
def rawTail (ms : List (CStr × CStr)) : CStr := ms.flatMap fun m => ',' :: rawMember m
/-- A text of a member with the key `k` that starts with `k` as it is ends where the string does, and the key is plain. -/
theorem Member.raw (member : Member (k,.string v) t1) (chars : Chars v x) (same : t1 ++ rest = rawMember (k,x) ++ rest')
    (stop : ∀ c ∈ rest'.head?, c = ',') : (∀ c ∈ k, Plain c) ∧ rest = rest' := by
  obtain @⟨_,w,tk,w',u,_,blank,key,blank',value⟩ := member
  have shown : w ++ ('"' :: (tk ++ '"' :: (w' ++ ':' :: (u ++ rest)))) = '"' :: (k ++ '"' :: ':' :: '"' :: (x ++ '"' :: rest')) := by
    simpa [rawMember] using same
  obtain ⟨rfl,opened⟩ := blank_skipped blank (by decide) shown
  have spelled := (cons.inj opened).2
  have plain := (key.raw (b := []) rfl spelled).2
  obtain ⟨-,colon⟩ := key.end_unique (Chars.plains plain) spelled
  have behind := (@blank_skipped w' _ _ ':' blank' (by decide) colon).2
  refine ⟨plain,?_⟩
  obtain @⟨_,b,tv,b',blank,text,blank'⟩ := value
  cases text with
  | @string _ tv chars' =>
    have shown : b ++ ('"' :: (tv ++ '"' :: (b' ++ rest))) = '"' :: (x ++ '"' :: rest') := by simpa using (cons.inj behind).2
    have opened := (blank_skipped blank (by decide) shown).2
    have ended := (chars'.end_unique chars (cons.inj opened).2).2
    cases rest' with
    | nil => exact (append_eq_nil_iff.mp ended).2
    | cons c rest' =>
      obtain rfl := stop c rfl
      exact (blank_skipped blank' (by decide) ended).2
theorem rawTail_stop (ms : List (CStr × CStr)) : ∀ c ∈ (rawTail ms).head?, c = ',' := by
  cases ms with
  | nil => exact fun c member => absurd member (by simp [rawTail])
  | cons m ms => exact fun c member => by simpa [rawTail] using member.symm
/-- An object starts with a brace. -/
theorem Padded.brace {c : Char} (padded : Padded (.object ms) (c :: t)) (visible : c ≠ ' ' ∧ c ≠ '\t' ∧ c ≠ '\n' ∧ c ≠ '\r') : c = '\x7b' := by
  generalize whole : c :: t = all at padded
  obtain @⟨_,w,u,w',blank,text,blank'⟩ := padded
  rw [append_assoc] at whole
  have shown := (blank_skipped blank visible whole.symm).2
  cases text with
  | object_empty | object => exact (cons.inj shown).1.symm
/-- What stands between the braces of an object. -/
theorem Padded.members (padded : Padded (.object (m :: ms)) ('\x7b' :: t ++ ['\x7d'])) : Members (m :: ms) t := by
  generalize whole : '\x7b' :: t ++ ['\x7d'] = all at padded
  obtain @⟨_,w,u,w',blank,text,blank'⟩ := padded
  cases text with
  | @object _ t' members =>
    have shown : w ++ ('\x7b' :: (t' ++ '\x7d' :: w')) = '\x7b' :: (t ++ ['\x7d']) := by simpa using whole.symm
    have inner := (cons.inj (blank_skipped blank (by decide) shown).2).2
    obtain rfl | ⟨w',c,rfl⟩ := eq_nil_or_concat w'
    · rw [(append_inj' inner rfl).1] at members
      exact members
    · -- no blank stands behind the last brace
      have shape : t' ++ '\x7d' :: w'.concat c = (t' ++ '\x7d' :: w') ++ [c] := by simp
      have last := congrArg List.getLast? (shape.symm.trans inner)
      rw [getLast?_concat,getLast?_concat] at last
      obtain rfl := some.inj last
      have space := blank' '\x7d' (by simp)
      exact absurd space (by decide)
/-- In a text of an object whose keys are written as they are, no key needs an escape. -/
theorem Members.raw_plain {first : CStr × CStr × CStr} {l : List (CStr × CStr × CStr)} (strings : ∀ m ∈ first :: l, Chars m.2.1 m.2.2)
    (members : Members ((first :: l).map fun m => (m.1,.string m.2.1)) (rawMember (first.1,first.2.2) ++ rawTail (l.map fun m => (m.1,m.2.2)))) :
    ∀ m ∈ first :: l, ∀ c ∈ m.1, Plain c := by
  induction l generalizing first with
  | nil =>
    rw [map_nil,rawTail,List.flatMap_nil,append_nil] at members
    have member : Member (first.1,.string first.2.1) (rawMember (first.1,first.2.2)) := members.single
    have plain := (@Member.raw _ _ _ _ [] [] member (strings first mem_cons_self) rfl (fun c no => absurd no (by simp))).1
    exact forall_mem_singleton.mpr plain
  | cons next l ih =>
    obtain ⟨none',-⟩ | ⟨t1,t2,whole,here,others⟩ := members.uncons
    · exact absurd none' (cons_ne_nil _ _)
    · obtain ⟨plain,left⟩ := Member.raw here (strings first mem_cons_self) whole.symm (rawTail_stop _)
      rw [map_cons,rawTail,flatMap_cons,cons_append] at left
      rw [(cons.inj left).2] at others
      exact forall_mem_cons.mpr ⟨plain,ih (fun m member => strings m (mem_cons_of_mem first member)) others⟩
end
end TestEnvironment.Lib.Json
