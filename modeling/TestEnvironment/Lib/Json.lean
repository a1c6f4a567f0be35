import TestEnvironment.Lib.Strings

/-!
JSON: values and the texts of the grammar (RFC 8259) that stand for them. A byte is the character
with its code; strings are decoded to bytes, `\u` escapes to the UTF-8 bytes of their characters.
-/
namespace TestEnvironment.Lib.Json

/-- A JSON value; a number is kept as it is written. -/
inductive Value
  | null
  | bool (b : Bool)
  | number (text : CStr)
  | string (s : CStr)
  | array (items : List Value)
  | object (members : List (CStr × Value))

def IsDigit (c : Char) : Prop := '0' ≤ c ∧ c ≤ '9'
def Digits (t : CStr) : Prop := t ≠ [] ∧ ∀ c ∈ t, IsDigit c
def IntPart (t : CStr) : Prop := t = ['0'] ∨ ∃ d ds, t = d :: ds ∧ '1' ≤ d ∧ d ≤ '9' ∧ ∀ c ∈ ds, IsDigit c
def FracPart (t : CStr) : Prop := t = [] ∨ ∃ ds, t = '.' :: ds ∧ Digits ds
def ExpPart (t : CStr) : Prop :=
  t = [] ∨ ∃ e sign ds, t = e :: sign ++ ds ∧ (e = 'e' ∨ e = 'E') ∧ (sign = [] ∨ sign = ['+'] ∨ sign = ['-']) ∧ Digits ds
def Number (t : CStr) : Prop :=
  ∃ sign int frac exp, t = sign ++ int ++ frac ++ exp ∧ (sign = [] ∨ sign = ['-']) ∧ IntPart int ∧ FracPart frac ∧ ExpPart exp
def Blank (t : CStr) : Prop := ∀ c ∈ t, c = ' ' ∨ c = '\t' ∨ c = '\n' ∨ c = '\r'

/-- The value of a hexadecimal digit. -/
def hexValue (c : Char) : Option Nat :=
  if '0' ≤ c ∧ c ≤ '9' then some (c.toNat-48)
  else if 'a' ≤ c ∧ c ≤ 'f' then some (c.toNat-87)
  else if 'A' ≤ c ∧ c ≤ 'F' then some (c.toNat-55)
  else none
/-- Four digits make a code unit. -/
def Unit16 (t : CStr) (n : Nat) : Prop :=
  ∃ a b c d va vb vc vd, t = [a,b,c,d] ∧ hexValue a = some va ∧ hexValue b = some vb ∧ hexValue c = some vc ∧ hexValue d = some vd ∧
    n = 16*(16*(16*va+vb)+vc)+vd
def Surrogate (n : Nat) : Prop := 0xd800 ≤ n ∧ n < 0xe000
/-- The bytes of a character. -/
def utf8 (n : Nat) : CStr :=
  if n < 0x80 then [Char.ofNat n]
  else if n < 0x800 then [Char.ofNat (0xc0+n/0x40),Char.ofNat (0x80+n%0x40)]
  else if n < 0x10000 then [Char.ofNat (0xe0+n/0x1000),Char.ofNat (0x80+n/0x40%0x40),Char.ofNat (0x80+n%0x40)]
  else [Char.ofNat (0xf0+n/0x40000),Char.ofNat (0x80+n/0x1000%0x40),Char.ofNat (0x80+n/0x40%0x40),Char.ofNat (0x80+n%0x40)]
/-- An escape of two characters. -/
inductive Escape : Char → Char → Prop
  | quote : Escape '"' '"'
  | backslash : Escape '\\' '\\'
  | slash : Escape '/' '/'
  | b : Escape '\x08' 'b'
  | f : Escape '\x0c' 'f'
  | n : Escape '\n' 'n'
  | r : Escape '\r' 'r'
  | t : Escape '\t' 't'
def Plain (c : Char) : Prop := 0x20 ≤ c.toNat ∧ c ≠ '"' ∧ c ≠ '\\'
/-- Bytes and what stands for them between quotation marks. -/
inductive Chars : CStr → CStr → Prop
  | nil : Chars [] []
  | plain {c : Char} {s t : CStr} : Plain c → Chars s t → Chars (c :: s) (c :: t)
  | escape {c e : Char} {s t : CStr} : Escape c e → Chars s t → Chars (c :: s) ('\\' :: e :: t)
  | unit {h s t : CStr} {n : Nat} : Unit16 h n → ¬Surrogate n → Chars s t → Chars (utf8 n ++ s) ('\\' :: 'u' :: h ++ t)
  | pair {h l s t : CStr} {n m : Nat} : Unit16 h (0xd800+n) → n < 0x400 → Unit16 l (0xdc00+m) → m < 0x400 → Chars s t →
      Chars (utf8 (0x10000+n*0x400+m) ++ s) ('\\' :: 'u' :: h ++ '\\' :: 'u' :: l ++ t)

mutual
/-- A value and a text for it. -/
inductive Text : Value → CStr → Prop
  | null : Text .null "null".toList
  | bool (b : Bool) : Text (.bool b) (if b then "true".toList else "false".toList)
  | number {t : CStr} : Number t → Text (.number t) t
  | string {s t : CStr} : Chars s t → Text (.string s) ('"' :: t ++ ['"'])
  | array_empty {w : CStr} : Blank w → Text (.array []) ('[' :: w ++ [']'])
  | array {items : List Value} {t : CStr} : Items items t → Text (.array items) ('[' :: t ++ [']'])
  | object_empty {w : CStr} : Blank w → Text (.object []) ('\x7b' :: w ++ ['\x7d'])
  | object {members : List (CStr × Value)} {t : CStr} : Members members t → Text (.object members) ('\x7b' :: t ++ ['\x7d'])
/-- A value with blanks around it: also the grammar of a whole text. -/
inductive Padded : Value → CStr → Prop
  | pad {v : Value} {w t w' : CStr} : Blank w → Text v t → Blank w' → Padded v (w ++ t ++ w')
inductive Items : List Value → CStr → Prop
  | one {v : Value} {t : CStr} : Padded v t → Items [v] t
  | snoc {items : List Value} {v : Value} {t u : CStr} : Items items t → Padded v u → Items (items ++ [v]) (t ++ ',' :: u)
inductive Member : CStr × Value → CStr → Prop
  | member {k w t w' u : CStr} {v : Value} : Blank w → Chars k t → Blank w' → Padded v u →
      Member (k,v) (w ++ '"' :: t ++ '"' :: w' ++ ':' :: u)
inductive Members : List (CStr × Value) → CStr → Prop
  | one {m : CStr × Value} {t : CStr} : Member m t → Members [m] t
  | snoc {members : List (CStr × Value)} {m : CStr × Value} {t u : CStr} : Members members t → Member m u →
      Members (members ++ [m]) (t ++ ',' :: u)
end

section
variable {v : Value} {k s s' t t' : CStr} {items : List Value} {members : List (CStr × Value)}

theorem blank_nil : Blank [] := fun _ member => absurd member not_mem_nil
theorem Text.padded (text : Text v t) : Padded v t := by
  have pad := Padded.pad blank_nil text blank_nil
  rwa [nil_append,append_nil] at pad
theorem Chars.append (first : Chars s t) (second : Chars s' t') : Chars (s ++ s') (t ++ t') := by
  induction first with
  | nil => exact second
  | plain plain _ ih => exact .plain plain ih
  | escape escape _ ih => exact .escape escape ih
  | unit h single _ ih =>
    have whole := Chars.unit h single ih
    simpa only [append_assoc,cons_append] using whole
  | pair h high l low _ ih =>
    have whole := Chars.pair h high l low ih
    simpa only [append_assoc,cons_append] using whole
/-- Bytes that need no escape stand for themselves. -/
theorem Chars.plains (plain : ∀ c ∈ s, Plain c) : Chars s s := by
  induction s with
  | nil => exact .nil
  | cons c s ih => exact .plain (plain c mem_cons_self) (ih fun d member => plain d (mem_cons_of_mem c member))

/-- Items so far, perhaps none. -/
def SomeItems (items : List Value) (t : CStr) : Prop := items = [] ∧ t = [] ∨ Items items t
def SomeMembers (members : List (CStr × Value)) (t : CStr) : Prop := members = [] ∧ t = [] ∨ Members members t
/-- What is written before the next one. -/
def comma {α : Type} (before : List α) : CStr := if before.isEmpty then [] else [',']
theorem blank_skipped {w y z : CStr} {c : Char} (blank : Blank w) (visible : c ≠ ' ' ∧ c ≠ '\t' ∧ c ≠ '\n' ∧ c ≠ '\r')
    (same : w ++ y = c :: z) : w = [] ∧ y = c :: z := by
  cases w with
  | nil => exact ⟨rfl,same⟩
  | cons d w =>
    obtain ⟨rfl,-⟩ := cons.inj same
    obtain one | two | three | four := blank d mem_cons_self
    · exact absurd one visible.1
    · exact absurd two visible.2.1
    · exact absurd three visible.2.2.1
    · exact absurd four visible.2.2.2

theorem SomeItems.snoc {u : CStr} (before : SomeItems items t) (item : Padded v u) : SomeItems (items ++ [v]) (t ++ comma items ++ u) := by
  obtain ⟨rfl,rfl⟩ | before := before
  · exact .inr (.one item)
  · have more : comma items = [','] := by
      cases before with
      | one => rfl
      | snoc => exact if_neg (by simp)
    rw [more,append_assoc]
    exact .inr (.snoc before item)
theorem SomeMembers.snoc {u : CStr} {m : CStr × Value} (before : SomeMembers members t) (member : Member m u) :
    SomeMembers (members ++ [m]) (t ++ comma members ++ u) := by
  obtain ⟨rfl,rfl⟩ | before := before
  · exact .inr (.one member)
  · have more : comma members = [','] := by
      cases before with
      | one => rfl
      | snoc => exact if_neg (by simp)
    rw [more,append_assoc]
    exact .inr (.snoc before member)
/-- One item is a text by itself. -/
theorem Items.single (items : Items [v] t) : Padded v t := by
  generalize whole : [v] = all at items
  cases items with
  | one padded =>
    cases whole
    exact padded
  | @snoc before w t u first last =>
    have empty : before = [] := by
      cases before with
      | nil => rfl
      | cons x xs => simp at whole
    rw [empty] at first
    generalize no_items : ([] : List Value) = none_there at first
    cases first <;> simp at no_items
theorem SomeItems.array (all : SomeItems items t) : Text (.array items) ('[' :: t ++ [']']) := by
  obtain ⟨rfl,rfl⟩ | all := all
  · exact .array_empty blank_nil
  · exact .array all
theorem SomeMembers.object (all : SomeMembers members t) : Text (.object members) ('\x7b' :: t ++ ['\x7d']) := by
  obtain ⟨rfl,rfl⟩ | all := all
  · exact .object_empty blank_nil
  · exact .object all
theorem Member.plain {u : CStr} (plain : ∀ c ∈ k, Plain c) (value : Padded v u) : Member (k,v) ('"' :: k ++ '"' :: ':' :: u) := by
  have whole := Member.member blank_nil (.plains plain) blank_nil value
  rwa [nil_append,append_assoc] at whole
end
end TestEnvironment.Lib.Json
