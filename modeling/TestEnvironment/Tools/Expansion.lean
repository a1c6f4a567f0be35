import TestEnvironment.Tools.Expand
import TestEnvironment.Lib.Brackets

/-!
What a template with references stands for, and where the expansion gives it: the search for
the end of a reference goes on over a brace that directly follows it.
-/
namespace TestEnvironment.Tools
open Lib

section
variable (expand_param : CStr → Option CStr) (lookup_filter : CStr → Option (CStr → Except ExpandError CStr))

abbrev BalancedText (text : CStr) : Prop := Balanced OPENING CLOSING text
/-- The separator stands in the text within braces only. -/
abbrev NotOutside (sep : Char) (text : CStr) : Prop := TopFree OPENING CLOSING sep text

/-- What a name with its filters stands for, which is nothing where it is not set or where a filter drops the value. -/
inductive Denotes : CStr → Option CStr → Prop
  | name {name} : BalancedText name → NotOutside FILTER name → Denotes name (expand_param name)
  | absent {name filter fn} : Denotes name none → BalancedText filter → NotOutside FILTER filter → lookup_filter filter = some fn →
      Denotes (name ++ FILTER :: filter) none
  | filtered {name filter fn text result} : Denotes name (some text) → BalancedText filter → NotOutside FILTER filter →
      lookup_filter filter = some fn → fn text = .ok result → Denotes (name ++ FILTER :: filter) (some result)
  | dropped {name filter fn text} : Denotes name (some text) → BalancedText filter → NotOutside FILTER filter →
      lookup_filter filter = some fn → fn text = .error .TE_ENODATA → Denotes (name ++ FILTER :: filter) none

def PlainText (text : CStr) : Prop := ¬ [VARREF,OPENING] <:+: text
instance (text : CStr) : Decidable (PlainText text) := inferInstanceAs (Decidable (¬ _))
def reference (body : CStr) : CStr := [VARREF,OPENING] ++ body ++ [CLOSING]
def modifier (name : CStr) (mode : Char) (nested : CStr) : CStr := name ++ MODIFIER_INTRO :: mode :: nested

/-- What a template stands for, where all its references have a text. The parameter restricts the literals, the
references behind them and what follows these. -/
inductive Expands (apart : CStr → CStr → CStr → Prop) : CStr → CStr → Prop
  | literal {text} : PlainText text → apart text [] [] → Expands apart text text
  | plain {text name behind value rest} : PlainText text → apart text name behind → BalancedText name → NotOutside MODIFIER_INTRO name →
      Denotes expand_param lookup_filter name value → Expands apart behind rest →
      Expands apart (text ++ reference name ++ behind) (text ++ value.getD [] ++ rest)
  | kept {text name mode nested behind value rest} : PlainText text → apart text (modifier name mode nested) behind → BalancedText name →
      NotOutside MODIFIER_INTRO name → BalancedText nested → Denotes expand_param lookup_filter name value →
      mode = DEFAULT_VALUE ∧ value ≠ none ∨ mode = ALTERNATE_VALUE ∧ value = none → Expands apart behind rest →
      Expands apart (text ++ reference (modifier name mode nested) ++ behind) (text ++ value.getD [] ++ rest)
  | nested {text name mode nested behind value result rest} : PlainText text → apart text (modifier name mode nested) behind → BalancedText name →
      NotOutside MODIFIER_INTRO name → BalancedText nested → Denotes expand_param lookup_filter name value →
      mode = DEFAULT_VALUE ∧ value = none ∨ mode = ALTERNATE_VALUE ∧ value ≠ none → Expands apart nested result → Expands apart behind rest →
      Expands apart (text ++ reference (modifier name mode nested) ++ behind) (text ++ result ++ rest)

/-- No brace follows the reference, literals are short enough to be printed, and braces are not nested too deep for a level. -/
def Apart (text body behind : CStr) : Prop :=
  text.length ≤ INT_MAX ∧ Shallow OPENING CLOSING (2^32-1) body ∧ ∀ c ∈ behind.head?, c ≠ OPENING ∧ c ≠ CLOSING
end

variable {body : CStr} {expand : CStr → Except ExpandError CStr} {fuel : Nat} {default_value : Option CStr} {c : Char}

section
variable {up down : Char} {seps : Option CStr} {level : Nat} {passed mid tail : CStr}

/-- A search passes a text in which it stops nowhere. -/
theorem balancedLoop_pass (different : up ≠ down)
    (deep : ∀ front, front <+: mid → 0 ≤ (level : Int)+net up down front ∧ (level : Int)+net up down front < UINT32_MOD)
    (stop : ∀ front c, front ++ [c] <+: mid → c ≠ up → c ≠ down → (level : Int)+net up down front = 0 → ¬ ∀ set ∈ seps, c ∈ set) :
    ∃ level' : Nat, (level' : Int) = level+net up down mid ∧
      balancedLoop up down seps level passed (mid ++ tail) = balancedLoop up down seps level' (passed ++ mid) tail := by
  induction mid generalizing level passed with
  | nil => exact ⟨level,by simp,by simp⟩
  | cons c mid ih =>
    have first := deep [c] (prefix_append [c] mid)
    have own := deep [] nil_prefix
    rw [net_nil] at own
    -- the level behind the character
    have onward (next : Nat) (same : (next : Int) = level+net up down [c]) : ∃ level' : Nat, (level' : Int) = level+net up down (c :: mid) ∧
        balancedLoop up down seps next (passed ++ [c]) (mid ++ tail) = balancedLoop up down seps level' (passed ++ c :: mid) tail := by
      obtain ⟨level',number,looped⟩ := @ih next (passed ++ [c])
        (fun front start => by
          have later := deep (c :: front) ((List.prefix_cons_inj c).mpr start)
          rw [net_cons] at later
          omega)
        (fun front d start notUp notDown zero => stop (c :: front) d ((List.prefix_cons_inj c).mpr start) notUp notDown (by
          rw [net_cons]
          omega))
      refine ⟨level',by rw [net_cons]; omega,?_⟩
      rw [looped,append_assoc]
      rfl
    rw [cons_append,balancedLoop]
    by_cases isUp : c = up
    · subst isUp
      rw [if_pos rfl]
      rw [net_up different] at first
      rw [mod_eq_of_lt (by omega)]
      exact onward (level+1) (by rw [net_up different]; omega)
    · rw [if_neg isUp]
      by_cases isDown : c = down
      · subst isDown
        rw [if_pos rfl]
        rw [net_down different] at first
        have lower : (level+(UINT32_MOD-1))%UINT32_MOD = level-1 := by grind [UINT32_MOD]
        rw [lower]
        exact onward (level-1) (by rw [net_down different]; omega)
      · rw [if_neg isDown,if_neg]
        · exact onward level (by rw [net_plain isUp isDown]; omega)
        · rintro ⟨zero,found⟩
          exact stop [] c (by simp) isUp isDown (by simp [zero]) found
theorem braces_differ : OPENING ≠ CLOSING := by decide
/-- The whole text is passed, so the search ends behind it. -/
theorem balancedLoop_end (different : up ≠ down) (balanced : Balanced up down mid) (shallow : Shallow up down UINT32_MOD mid)
    (stop : ∀ front c, front ++ [c] <+: mid → c ≠ up → c ≠ down → net up down front = 0 → ¬ ∀ set ∈ seps, c ∈ set) :
    balancedLoop up down seps 0 passed (mid ++ tail) = balancedLoop up down seps 0 (passed ++ mid) tail := by
  obtain ⟨level',number,looped⟩ := @balancedLoop_pass up down seps 0 passed mid tail different
    (fun front start => by
      have inside := balanced.inside front start
      have bound := shallow front start
      constructor <;> simp <;> omega)
    (fun front c start notUp notDown zero => stop front c start notUp notDown (by simpa using zero))
  rw [balanced.even] at number
  rw [looped,show level' = 0 by omega]

section
variable (balanced : BalancedText body) (shallow : Shallow OPENING CLOSING (2^32-1) body)
include balanced shallow
/-- A reference is passed with its braces. -/
theorem reference_passed (behind : CStr) :
    te_strpbrk_balanced (OPENING :: (body ++ CLOSING :: behind)) OPENING CLOSING none =
      balancedLoop OPENING CLOSING none 0 (OPENING :: (body ++ [CLOSING])) behind := by
  have start : net OPENING CLOSING [OPENING] = 1 := net_up braces_differ
  have last : net OPENING CLOSING [CLOSING] = -1 := net_down braces_differ
  -- a prefix is empty, ends within the body, or is everything
  have prefixes : ∀ front, front <+: OPENING :: (body ++ [CLOSING]) →
      front = [] ∨ (∃ inner, inner <+: body ∧ front = OPENING :: inner) ∨ front = OPENING :: (body ++ [CLOSING]) := by
    intro front within
    cases front with
    | nil => exact .inl rfl
    | cons c inner =>
      obtain ⟨rfl,later⟩ := List.cons_prefix_cons.mp within
      rcases prefix_parts later with short | ⟨rest,tail',rfl⟩
      · exact .inr (.inl ⟨inner,short,rfl⟩)
      · cases rest with
        | nil => exact .inr (.inl ⟨body,prefix_refl _,by simp⟩)
        | cons d rest => grind
  have passed := @balancedLoop_end OPENING CLOSING none [] (OPENING :: (body ++ [CLOSING])) behind braces_differ
    ⟨fun front within => by
      rcases prefixes front within with rfl | ⟨inner,short,rfl⟩ | rfl
      · simp
      · have inside := balanced.inside inner short
        rw [net_cons,start]
        omega
      · rw [net_cons,net_append,balanced.even,start,last]
        omega,
      by rw [net_cons,net_append,balanced.even,start,last]; omega⟩
    (fun front within => by
      have number : (UINT32_MOD : Int) = 2^32 := by decide
      rcases prefixes front within with rfl | ⟨inner,short,rfl⟩ | rfl
      · rw [net_nil]
        omega
      · have bound := shallow inner short
        rw [net_cons,start]
        omega
      · rw [net_cons,net_append,balanced.even,start,last]
        omega)
    (fun front c within notUp notDown zero => by
      exfalso
      have shorter : front <+: OPENING :: (body ++ [CLOSING]) := (prefix_append front [c]).trans within
      rcases prefixes front shorter with rfl | ⟨inner,short,rfl⟩ | rfl
      · grind
      · have inside := balanced.inside inner short
        rw [net_cons,start] at zero
        omega
      · have length := within.length_le
        simp at length)
  rw [te_strpbrk_balanced,show OPENING :: (body ++ CLOSING :: behind) = OPENING :: (body ++ [CLOSING]) ++ behind by simp,passed,nil_append]
/-- The reference ends at its brace where no brace follows. -/
theorem reference_end {behind : CStr} (apart : ∀ c ∈ behind.head?, c ≠ OPENING ∧ c ≠ CLOSING) :
    te_strpbrk_balanced (OPENING :: (body ++ CLOSING :: behind)) OPENING CLOSING none = .found (OPENING :: (body ++ [CLOSING])) behind := by
  rw [reference_passed balanced shallow]
  cases behind with
  | nil => rfl
  | cons c behind =>
    obtain ⟨notUp,notDown⟩ := apart c rfl
    rw [balancedLoop,if_neg notUp,if_neg notDown,if_pos ⟨rfl,by simp⟩]
end
/-- A name without a modifier outside all braces. -/
theorem split_plain {name : CStr} (balanced : BalancedText name) (shallow : Shallow OPENING CLOSING UINT32_MOD name)
    (free : NotOutside MODIFIER_INTRO name) : splitReference name = .ok (name,none) := by
  have passed := @balancedLoop_end OPENING CLOSING (some [ MODIFIER_INTRO]) [] name [] braces_differ balanced shallow
    fun front c start _ _ zero found => free front (mem_singleton.mp (found [ MODIFIER_INTRO] rfl) ▸ start) zero
  rw [append_nil] at passed
  rw [splitReference,te_strpbrk_balanced,passed]
  rfl
theorem split_modifier {name nested : CStr} {mode : Char} (balanced : BalancedText name) (shallow : Shallow OPENING CLOSING UINT32_MOD name)
    (free : NotOutside MODIFIER_INTRO name) (known : mode = DEFAULT_VALUE ∨ mode = ALTERNATE_VALUE) :
    splitReference (modifier name mode nested) = .ok (name,some (mode :: nested)) := by
  have passed := @balancedLoop_end OPENING CLOSING (some [ MODIFIER_INTRO]) [] name (MODIFIER_INTRO :: mode :: nested) braces_differ balanced shallow
    fun front c start _ _ zero found => free front (mem_singleton.mp (found [ MODIFIER_INTRO] rfl) ▸ start) zero
  rw [splitReference,te_strpbrk_balanced,modifier,passed,balancedLoop,if_neg (by decide),if_neg (by decide),if_pos ⟨rfl,by simp⟩]
  rcases known with rfl | rfl <;> rfl
/-- The search from the end stops at no filter separator within the text. -/
theorem reverse_passed {text : CStr} (balanced : BalancedText text) (shallow : Shallow OPENING CLOSING UINT32_MOD text)
    (free : NotOutside FILTER text) (tail : CStr) :
    balancedLoop CLOSING OPENING (some [FILTER]) 0 [] (text.reverse ++ tail) = balancedLoop CLOSING OPENING (some [FILTER]) 0 text.reverse tail :=
  balancedLoop_end braces_differ.symm balanced.reverse (shallow.reverse balanced) fun front c start _ _ zero found =>
    free.reverse balanced (by decide) (by decide) front (mem_singleton.mp (found [FILTER] rfl) ▸ start) zero
theorem search_name {name : CStr} (balanced : BalancedText name) (shallow : Shallow OPENING CLOSING UINT32_MOD name) (free : NotOutside FILTER name) :
    te_strpbrk_rev_balanced name OPENING CLOSING [FILTER] = .TE_ENOENT := by
  have passed := reverse_passed balanced shallow free []
  rw [append_nil] at passed
  rw [te_strpbrk_rev_balanced,passed]
  rfl
theorem search_filter {filter : CStr} (name : CStr) (balanced : BalancedText filter) (shallow : Shallow OPENING CLOSING UINT32_MOD filter)
    (free : NotOutside FILTER filter) :
    te_strpbrk_rev_balanced (name ++ FILTER :: filter) OPENING CLOSING [FILTER] = .found name (FILTER :: filter) := by
  have turned : (name ++ FILTER :: filter).reverse = filter.reverse ++ FILTER :: name.reverse := by simp
  rw [te_strpbrk_rev_balanced,turned,reverse_passed balanced shallow free,balancedLoop,if_neg (by decide),if_neg (by decide),if_pos ⟨rfl,by simp⟩]
  simp
end

section
variable {expand_param : CStr → Option CStr} {lookup_filter : CStr → Option (CStr → Except ExpandError CStr)} {name : CStr} {value : Option CStr}

theorem Denotes.balanced (denotes : Denotes expand_param lookup_filter name value) : BalancedText name := by
  have joined {name filter : CStr} (first : BalancedText name) (second : BalancedText filter) : BalancedText (name ++ FILTER :: filter) :=
    first.append (Balanced.append (s := [FILTER]) (.plain (by decide) (by decide)) second)
  induction denotes with
  | name balanced _ => exact balanced
  | absent _ balanced _ _ ih => exact joined ih balanced
  | filtered _ balanced _ _ _ ih => exact joined ih balanced
  | dropped _ balanced _ _ _ ih => exact joined ih balanced
/-- The result for a name, with nothing for the error that means so. -/
def outcome (value : Option CStr) : Except ExpandError CStr :=
  match value with
  | some text => .ok text
  | none => .error .TE_ENODATA
/-- The last filter is applied to the result for the rest. -/
theorem expand_last_filter {filter : CStr} {fn : CStr → Except ExpandError CStr} (fuel : Nat) (first : BalancedText name) (balanced : BalancedText filter)
    (free : NotOutside FILTER filter) (found : lookup_filter filter = some fn) (shallow : Shallow OPENING CLOSING UINT32_MOD (name ++ FILTER :: filter)) :
    expand_with_filter expand_param lookup_filter (fuel+1) (name ++ FILTER :: filter) = (expand_with_filter expand_param lookup_filter fuel name).bind fn := by
  have apart : name ++ FILTER :: filter = (name ++ [FILTER]) ++ filter := by simp
  have even : net OPENING CLOSING (name ++ [FILTER]) = 0 := by
    rw [net_append,first.even,net_plain (by decide) (by decide)]
    rfl
  have shallowFilter : Shallow OPENING CLOSING UINT32_MOD filter := (apart ▸ shallow).behind even
  rw [expand_with_filter,search_filter name balanced shallowFilter free]
  simp only [List.drop_succ_cons,drop_zero,found]
/-- Names with filters give what they stand for. -/
theorem Denotes.expanded (denotes : Denotes expand_param lookup_filter name value) (shallow : Shallow OPENING CLOSING UINT32_MOD name)
    (enough : name.length < fuel) : expand_with_filter expand_param lookup_filter fuel name = outcome value := by
  induction denotes generalizing fuel with
  | @name name balanced free =>
    obtain ⟨fuel,rfl⟩ := succ_of_lt enough
    rw [expand_with_filter,search_name balanced shallow free]
    cases found : expand_param name <;> simp only [outcome]
  | absent before balanced free found ih =>
    rw [length_append,length_cons] at enough
    obtain ⟨fuel,rfl⟩ := succ_of_lt enough
    rw [expand_last_filter fuel before.balanced balanced free found shallow,ih shallow.before (by omega)]
    rfl
  | filtered before balanced free found applied ih | dropped before balanced free found applied ih =>
    rw [length_append,length_cons] at enough
    obtain ⟨fuel,rfl⟩ := succ_of_lt enough
    rw [expand_last_filter fuel before.balanced balanced free found shallow,ih shallow.before (by omega)]
    exact applied
/-- A literal is passed up to the reference behind it. -/
theorem strstr_literal {text behind : CStr} (literal : PlainText text) : strstr [VARREF,OPENING] (text ++ VARREF :: OPENING :: behind) = some (text,behind) := by
  induction text with
  | nil => simp [startsWith,strstr]
  | cons c text ih =>
    have later : PlainText text := fun inside => literal (List.infix_cons inside)
    have other : ¬ startsWith [VARREF,OPENING] (c :: (text ++ VARREF :: OPENING :: behind)) = true := by
      intro starts
      obtain ⟨rest,parts⟩ := startsWith_iff.mp starts
      cases text with
      | nil =>
        simp only [cons_append,nil_append,List.cons.injEq] at parts
        exact absurd parts.2.1 (by decide)
      | cons d text =>
        simp only [cons_append,nil_append,List.cons.injEq] at parts
        obtain ⟨rfl,rfl,_⟩ := parts
        exact literal ⟨[],text,rfl⟩
    rw [cons_append,strstr,if_neg other,ih later]
    rfl
theorem strstr_plain {text : CStr} (literal : PlainText text) : strstr [VARREF,OPENING] text = none := by
  induction text with
  | nil => rfl
  | cons c text ih =>
    have later : PlainText text := fun inside => literal (List.infix_cons inside)
    have other : ¬ startsWith [VARREF,OPENING] (c :: text) = true := fun starts => literal (startsWith_iff.mp starts).isInfix
    rw [strstr,if_neg other,ih later]
    rfl
theorem append_literal {text : CStr} (behind : CStr) (short : text.length ≤ INT_MAX) : appendPrec text.length (text ++ behind) = .ok text := by
  have number : ((text.length : Int)).bmod (2^32) = text.length := by
    rw [Int.bmod_eq_of_le] <;> simp only [INT_MAX] at short <;> omega
  rw [appendPrec,number]
  simp only [Int.toNat_natCast,take_left]
  rw [if_neg (by omega),appendText,if_neg (by omega)]
/-- A reference is taken apart, and the string goes on behind it. -/
theorem process_spec {behind result : CStr} (balanced : BalancedText body)
    (shallow : Shallow OPENING CLOSING (2^32-1) body) (apart : ∀ c ∈ behind.head?, c ≠ OPENING ∧ c ≠ CLOSING)
    (split : splitReference body = .ok (name,default_value)) (shallowName : Shallow OPENING CLOSING UINT32_MOD name)
    (denotes : Denotes expand_param lookup_filter name value) (text : modifiedText expand default_value (outcome value) = .ok result) :
    process_reference expand_param lookup_filter expand (OPENING :: (body ++ CLOSING :: behind)) = .ok (result,behind) := by
  have cut : ((OPENING :: (body ++ [CLOSING])).drop 1).take ((OPENING :: (body ++ [CLOSING])).length-2) = body := by simp
  rw [process_reference,reference_end balanced shallow apart]
  simp only [cut,split,denotes.expanded shallowName (lt_succ_self _),text,bind,Except.bind]
theorem expand_step {text behind value rest : CStr} (literal : PlainText text) (short : text.length ≤ INT_MAX)
    (processed : process_reference expand_param lookup_filter (te_string_expand_parameters expand_param lookup_filter fuel)
      (OPENING :: (body ++ CLOSING :: behind)) = .ok (value,behind))
    (later : te_string_expand_parameters expand_param lookup_filter fuel behind = .ok rest) :
    te_string_expand_parameters expand_param lookup_filter (fuel+1) (text ++ reference body ++ behind) = .ok (text ++ value ++ rest) := by
  have whole : text ++ reference body ++ behind = text ++ VARREF :: OPENING :: (body ++ CLOSING :: behind) := by simp [reference]
  rw [te_string_expand_parameters,whole,strstr_literal literal]
  simp only
  rw [append_literal _ short,processed]
  simp only [Except.mapError,later,bind,Except.bind]
theorem modifier_balanced {nested : CStr} {mode : Char} (first : BalancedText name) (second : BalancedText nested)
    (known : mode = DEFAULT_VALUE ∨ mode = ALTERNATE_VALUE) : BalancedText (modifier name mode nested) := by
  have sign : BalancedText [mode] := by
    rcases known with rfl | rfl
    · exact .plain (by decide) (by decide)
    · exact .plain (by decide) (by decide)
  exact first.append (Balanced.append (.plain (by decide) (by decide) : BalancedText [ MODIFIER_INTRO]) (sign.append second))
/-- Where no brace follows a reference, templates expand to what they stand for. -/
theorem Expands.expanded {t r : CStr} (expands : Expands expand_param lookup_filter Apart t r) (enough : t.length < fuel) :
    te_string_expand_parameters expand_param lookup_filter fuel t = .ok r := by
  have wide : (2^32-1 : Int) ≤ UINT32_MOD := by decide
  induction expands generalizing fuel with
  | literal literal apart =>
    obtain ⟨fuel,rfl⟩ := succ_of_lt enough
    have short := apart.1
    rw [te_string_expand_parameters,strstr_plain literal]
    simp only [appendText]
    rw [if_neg (by omega)]
  | @plain text name behind value rest literal apart balanced free denotes _ ih =>
    obtain ⟨short,shallow,follows⟩ := apart
    obtain ⟨fuel,rfl⟩ := succ_of_lt enough
    simp only [reference,length_append,length_cons] at enough
    have front := shallow.mono wide
    refine expand_step literal short (process_spec balanced shallow follows (split_plain balanced front free) front denotes ?_) (ih (by omega))
    cases value <;> rfl
  | @kept text name mode nested behind value rest literal apart balanced free balancedNested denotes cases' _ ih =>
    obtain ⟨short,shallow,follows⟩ := apart
    obtain ⟨fuel,rfl⟩ := succ_of_lt enough
    simp only [reference,length_append,length_cons] at enough
    have known : mode = DEFAULT_VALUE ∨ mode = ALTERNATE_VALUE := cases'.imp And.left And.left
    have front := (shallow.before (s := name)).mono wide
    refine expand_step literal short (process_spec (modifier_balanced balanced balancedNested known) shallow follows
      (split_modifier balanced front free known) front denotes ?_) (ih (by omega))
    rcases cases' with ⟨rfl,set⟩ | ⟨rfl,rfl⟩
    · obtain ⟨v,rfl⟩ := ne_none_iff_exists'.mp set
      simp only [modifiedText,outcome]
      rw [if_neg (show ¬ DEFAULT_VALUE = ALTERNATE_VALUE by decide)]
      rfl
    · simp [modifiedText,outcome,ALTERNATE_VALUE,DEFAULT_VALUE]
  | @nested text name mode nested behind value result rest literal apart balanced free balancedNested denotes cases' _ _ ihNested ih =>
    obtain ⟨short,shallow,follows⟩ := apart
    obtain ⟨fuel,rfl⟩ := succ_of_lt enough
    simp only [reference,modifier,length_append,length_cons] at enough
    have known : mode = DEFAULT_VALUE ∨ mode = ALTERNATE_VALUE := cases'.imp And.left And.left
    have front := (shallow.before (s := name)).mono wide
    have inner := @ihNested fuel (by omega)
    refine expand_step literal short (process_spec (modifier_balanced balanced balancedNested known) shallow follows
      (split_modifier balanced front free known) front denotes ?_) (ih (by omega))
    rcases cases' with ⟨rfl,rfl⟩ | ⟨rfl,set⟩
    · simp only [modifiedText,outcome,if_true]
      exact inner
    · obtain ⟨v,rfl⟩ := ne_none_iff_exists'.mp set
      simp only [modifiedText,outcome,if_true]
      exact inner
end

section
variable {up down : Char} {seps : Option CStr} {level : Nat} {passed before from' : CStr}

variable {str ref : CStr}

/-- What a search finds is the rest of the text, from a separator on, behind what it has passed. -/
theorem balancedLoop_parts (found : balancedLoop up down seps level passed str = .found before from') :
    ∃ mid, str = mid ++ from' ∧ before = passed ++ mid ∧ ∀ c ∈ from'.head?, ∀ set ∈ seps, c ∈ set := by
  induction str generalizing level passed with
  | nil =>
    rw [balancedLoop] at found
    split_ifs at found
    obtain ⟨rfl,rfl⟩ := Search.found.inj found
    exact ⟨[],rfl,(append_nil _).symm,nofun⟩
  | cons c str ih =>
    have onward {level : Nat} (later : balancedLoop up down seps level (passed ++ [c]) str = .found before from') :
        ∃ mid, c :: str = mid ++ from' ∧ before = passed ++ mid ∧ ∀ c ∈ from'.head?, ∀ set ∈ seps, c ∈ set := by grind
    rw [balancedLoop] at found
    split_ifs at found with _ _ stops
    · exact onward found
    · exact onward found
    · grind
    · exact onward found
theorem search_parts {filter : CStr} (found : te_strpbrk_rev_balanced str OPENING CLOSING [FILTER] = .found before filter) :
    ∃ rest, filter = FILTER :: rest ∧ str = before ++ FILTER :: rest := by
  rw [te_strpbrk_rev_balanced] at found
  cases looped : balancedLoop CLOSING OPENING (some [FILTER]) 0 [] str.reverse with
  | TE_EILSEQ | TE_ENOENT => rw [looped] at found; cases found
  | found behind tail =>
    rw [looped] at found
    cases tail with
    | nil => cases found
    | cons sep front =>
      obtain ⟨rfl,rfl⟩ := Search.found.inj found
      obtain ⟨mid,parts,rfl,sep'⟩ := balancedLoop_parts looped
      obtain rfl : sep = FILTER := mem_singleton.mp (sep' sep rfl [FILTER] rfl)
      refine ⟨behind.reverse,rfl,?_⟩
      have turned := congrArg List.reverse parts
      simpa using turned

variable {expand_param : CStr → Option CStr} {lookup_filter : CStr → Option (CStr → Except ExpandError CStr)} {name : CStr}

/-- Names that do not begin with the only known one have no text, whatever their filters are. -/
theorem unknown_name {text : CStr} (only : ∀ n, n ≠ name → expand_param n = none) (other : ref ≠ name)
    (apart : ¬ name ++ [FILTER] <+: ref) : expand_with_filter expand_param lookup_filter fuel ref ≠ .ok text := by
  induction fuel generalizing ref text with
  | zero => nofun
  | succ fuel ih =>
    rw [expand_with_filter]
    cases search : te_strpbrk_rev_balanced ref OPENING CLOSING [FILTER] with
    | TE_EILSEQ => nofun
    | TE_ENOENT =>
      simp only [only ref other]
      nofun
    | found before filter =>
      obtain ⟨rest,rfl,rfl⟩ := search_parts search
      simp only [List.drop_succ_cons,drop_zero]
      cases lookup_filter rest with
      | none => nofun
      | some fn =>
        have first : ∀ text, expand_with_filter expand_param lookup_filter fuel before ≠ .ok text := fun text => by
          refine ih (fun same => apart ?_) fun within => apart (within.trans (prefix_append _ _))
          rw [same]
          exact ⟨rest,by simp⟩
        intro applied
        cases result : expand_with_filter expand_param lookup_filter fuel before with
        | error e =>
          simp only [result,Except.bind] at applied
          cases applied
        | ok text => exact first text result
/-- Where a brace is next, it is passed. -/
theorem brace_passed (brace : c = OPENING ∨ c = CLOSING)
    (found : balancedLoop OPENING CLOSING seps level passed (c :: str) = .found before from') :
    ∃ mid, str = mid ++ from' ∧ before = passed ++ c :: mid := by
  have onward {level : Nat} (later : balancedLoop OPENING CLOSING seps level (passed ++ [c]) str = .found before from') :
      ∃ mid, str = mid ++ from' ∧ before = passed ++ c :: mid := by
    obtain ⟨mid,rfl,rfl,_⟩ := balancedLoop_parts later
    exact ⟨mid,rfl,by simp⟩
  rw [balancedLoop] at found
  rcases brace with rfl | rfl
  · rw [if_pos rfl] at found
    exact onward found
  · rw [if_neg braces_differ.symm,if_pos rfl] at found
    exact onward found
/-- A name that goes on behind a closing brace stays together. -/
theorem split_open {x : CStr} (balanced : BalancedText name) (shallow : Shallow OPENING CLOSING UINT32_MOD name)
    (free : NotOutside MODIFIER_INTRO name) (split : splitReference (name ++ CLOSING :: x) = .ok (ref,default_value)) :
    ∃ y, ref = name ++ CLOSING :: y ∧ ∀ value, default_value = some value → value <:+ x := by
  have passed := @balancedLoop_end OPENING CLOSING (some [ MODIFIER_INTRO]) [] name (CLOSING :: x) braces_differ balanced shallow
    fun front c start _ _ zero found => free front (mem_singleton.mp (found [ MODIFIER_INTRO] rfl) ▸ start) zero
  rw [splitReference,te_strpbrk_balanced,passed,nil_append] at split
  cases search : balancedLoop OPENING CLOSING (some [ MODIFIER_INTRO]) 0 name (CLOSING :: x) with
  | TE_EILSEQ => rw [search] at split; cases split
  | TE_ENOENT => grind
  | found before default' =>
    rw [search] at split
    obtain ⟨mid,rfl,rfl⟩ := brace_passed (.inr rfl) search
    simp only at split
    split_ifs at split
    obtain ⟨rfl,rfl⟩ := Prod.mk.inj (ok.inj split)
    refine ⟨mid,rfl,fun value same => ?_⟩
    obtain rfl := some.inj same
    exact (List.drop_suffix 1 default').trans (List.suffix_append mid default')
theorem modified_error {e : ExpandError} {text : CStr} (modified : modifiedText expand default_value (.error e) = .ok text) :
    text = [] ∨ ∃ mode nested, default_value = some (mode :: nested) ∧ expand nested = .ok text := by
  unfold modifiedText at modified
  split at modified
  · cases ‹Except.error e = _›
  · cases ‹Except.error e = _›
  · grind
  · exact .inl (ok.inj modified).symm
  · cases modified
/-- With a brace behind it, a reference has no text of its own. -/
theorem process_brace {behind tail' value : CStr} (balanced : BalancedText name)
    (shallow : Shallow OPENING CLOSING (2^32-1) name) (free : NotOutside MODIFIER_INTRO name) (only : ∀ n, n ≠ name → expand_param n = none)
    (brace : c = OPENING ∨ c = CLOSING)
    (processed : process_reference expand_param lookup_filter expand (OPENING :: (name ++ CLOSING :: c :: behind)) = .ok (value,tail')) :
    tail' <:+: c :: behind ∧ (value = [] ∨ ∃ nested, nested <:+: c :: behind ∧ expand nested = .ok value) := by
  rw [process_reference,reference_passed balanced shallow] at processed
  cases search : balancedLoop OPENING CLOSING none 0 (OPENING :: (name ++ [CLOSING])) (c :: behind) with
  | TE_EILSEQ | TE_ENOENT => rw [search] at processed; cases processed
  | found reference rest =>
    rw [search] at processed
    obtain ⟨mid,rfl,rfl⟩ := brace_passed brace search
    have cut : ((OPENING :: (name ++ [CLOSING]) ++ c :: mid).drop 1).take ((OPENING :: (name ++ [CLOSING]) ++ c :: mid).length-2) =
        name ++ CLOSING :: (c :: mid).dropLast := by
      have whole : (OPENING :: (name ++ [CLOSING]) ++ c :: mid).drop 1 = name ++ [CLOSING] ++ c :: mid := rfl
      have length : (OPENING :: (name ++ [CLOSING]) ++ c :: mid).length-2 = (name ++ [CLOSING] ++ c :: mid).length-1 := by simp
      rw [whole,length,← List.dropLast_eq_take,List.dropLast_append_of_ne_nil (cons_ne_nil c mid)]
      simp
    simp only [cut,bind,Except.bind] at processed
    cases split : splitReference (name ++ CLOSING :: (c :: mid).dropLast) with
    | error e => rw [split] at processed; cases processed
    | ok parts =>
      obtain ⟨ref,default_value⟩ := parts
      rw [split] at processed
      obtain ⟨y,rfl,nested⟩ := split_open balanced (shallow.mono (by decide)) free split
      have inside : (c :: mid).dropLast <:+: c :: (mid ++ rest) :=
        (List.IsPrefix.trans ( List.dropLast_prefix (c :: mid)) (prefix_append (c :: mid) rest)).isInfix
      have failed : ∀ text, expand_with_filter expand_param lookup_filter ((name ++ CLOSING :: y).length+1) (name ++ CLOSING :: y) ≠ .ok text := fun text => by
        refine unknown_name only (fun same => ?_) fun within => ?_
        · have length := congrArg List.length same
          simp at length
        · obtain ⟨_,parts⟩ := within
          rw [append_assoc] at parts
          have next := (cons.inj (append_cancel_left parts)).1
          exact absurd next (by decide)
      simp only at processed
      cases result : expand_with_filter expand_param lookup_filter ((name ++ CLOSING :: y).length+1) (name ++ CLOSING :: y) with
      | ok text => exact absurd result (failed text)
      | error e =>
        rw [result] at processed
        cases modified : modifiedText expand default_value (.error e) with
        | error e' => rw [modified] at processed; cases processed
        | ok text =>
          rw [modified] at processed
          obtain ⟨rfl,rfl⟩ := Prod.mk.inj (ok.inj processed)
          refine ⟨⟨c :: mid,[],by simp⟩,(modified_error modified).imp_right ?_⟩
          rintro ⟨mode,value,rfl,expanded⟩
          exact ⟨value,((List.suffix_cons mode value).trans (nested _ rfl)).isInfix.trans inside,expanded⟩
end

section
variable {expand_param : CStr → Option CStr} {lookup_filter : CStr → Option (CStr → Except ExpandError CStr)} {text name behind : CStr}

theorem PlainText.part {inner : CStr} (plain : PlainText text) (within : inner <:+: text) : PlainText inner := fun inside => plain (inside.trans within)
theorem expand_plain {result : CStr} (plain : PlainText text)
    (expanded : te_string_expand_parameters expand_param lookup_filter fuel text = .ok result) : result = text := by
  cases fuel with
  | zero => cases expanded
  | succ fuel =>
    rw [te_string_expand_parameters,strstr_plain plain] at expanded
    simp only [appendText] at expanded
    split_ifs at expanded
    exact (ok.inj expanded).symm
/-- A brace behind a reference changes the result for some value of the name. -/
theorem brace_differs (literal : PlainText text) (short : text.length ≤ INT_MAX) (balanced : BalancedText name)
    (shallow : Shallow OPENING CLOSING (2^32-1) name) (free : NotOutside MODIFIER_INTRO name) (plain : PlainText (c :: behind))
    (brace : c = OPENING ∨ c = CLOSING) (only : ∀ n, n ≠ name → expand_param n = none) {value : CStr} (long : (c :: behind).length < value.length) :
    te_string_expand_parameters expand_param lookup_filter fuel (text ++ reference name ++ c :: behind) ≠ .ok (text ++ value ++ c :: behind) := by
  intro expanded
  have whole : text ++ reference name ++ c :: behind = text ++ VARREF :: OPENING :: (name ++ CLOSING :: c :: behind) := by simp [reference]
  cases fuel with
  | zero => cases expanded
  | succ fuel =>
    rw [te_string_expand_parameters,whole,strstr_literal literal] at expanded
    simp only at expanded
    rw [append_literal _ short] at expanded
    simp only [bind,Except.bind] at expanded
    cases processed : process_reference expand_param lookup_filter (te_string_expand_parameters expand_param lookup_filter fuel)
        (OPENING :: (name ++ CLOSING :: c :: behind)) with
    | error e =>
      simp only [processed,Except.mapError] at expanded
      cases expanded
    | ok parts =>
      obtain ⟨got,tail'⟩ := parts
      obtain ⟨rest,own⟩ := process_brace balanced shallow free only brace processed
      simp only [processed,Except.mapError] at expanded
      cases later : te_string_expand_parameters expand_param lookup_filter fuel tail' with
      | error e =>
        simp only [later] at expanded
        cases expanded
      | ok result =>
        simp only [later] at expanded
        have same := congrArg List.length (ok.inj expanded)
        have tail := expand_plain (plain.part rest) later
        have fewer := rest.length_le
        have bound : got.length ≤ (c :: behind).length := by
          rcases own with rfl | ⟨nested,within,inner⟩
          · exact Nat.zero_le _
          · rw [expand_plain (plain.part within) inner]
            exact within.length_le
        subst tail
        simp only [length_append] at same
        omega
/-- Templates expand to what they stand for where no brace follows a reference; with one plain reference, nowhere else. -/
theorem template_expansion (lookup_filter : CStr → Option (CStr → Except ExpandError CStr)) :
    (∀ expand_param t r, Expands expand_param lookup_filter Apart t r →
      te_string_expand_parameters expand_param lookup_filter (t.length+1) t = .ok r) ∧
    ∀ text name behind, PlainText text → text.length ≤ INT_MAX → BalancedText name → Shallow OPENING CLOSING (2^32-1) name →
      NotOutside MODIFIER_INTRO name → NotOutside FILTER name → PlainText behind → behind.length ≤ INT_MAX →
      ((∀ expand_param, te_string_expand_parameters expand_param lookup_filter ((text ++ reference name ++ behind).length+1) (text ++ reference name ++ behind) =
        .ok (text ++ (expand_param name).getD [] ++ behind)) ↔ ∀ c ∈ behind.head?, c ≠ OPENING ∧ c ≠ CLOSING) := by
  refine ⟨fun expand_param t r expands => expands.expanded (lt_succ_self _),fun text name behind literal short balanced shallow free unfiltered plain short' => ?_⟩
  constructor
  · intro always c head
    by_contra brace
    obtain ⟨behind,rfl⟩ : ∃ rest, behind = c :: rest := ⟨behind.tail,List.eq_cons_of_mem_head? head⟩
    have isBrace : c = OPENING ∨ c = CLOSING := by
      by_contra neither
      rw [not_or] at neither
      exact brace neither
    have known := always fun n => if n = name then some (replicate ((c :: behind).length+1) 'x') else none
    simp only [if_true,getD_some] at known
    exact brace_differs literal short balanced shallow free plain isBrace (fun n other => if_neg other) (by rw [length_replicate]; exact lt_succ_self _) known
  · intro apart expand_param
    have last : Expands expand_param lookup_filter Apart behind behind :=
      .literal plain ⟨short',fun front start => by rw [List.prefix_nil.mp start,net_nil]; decide,nofun⟩
    exact (Expands.plain literal ⟨short,shallow,apart⟩ balanced free (.name balanced unfiltered) last).expanded (lt_succ_self _)
theorem template_expansion_default :
    te_string_expand_parameters (fun name => if name = ['a'] then some ['A'] else none) (fun _ => none) 14 ['x','$','\x7b','c',':','-','d','\x7d','y','$','\x7b','a','\x7d'] =
      .ok ['x','d','y','A'] := by
  have char (c : Char) (notUp : c ≠ OPENING) (notDown : c ≠ CLOSING) : BalancedText [c] := .plain notUp notDown
  have letterA := char 'a' (by decide) (by decide)
  have letterC := char 'c' (by decide) (by decide)
  have set : Denotes (fun name => if name = ['a'] then some ['A'] else none) (fun _ => none) ['a'] (some ['A']) :=
    .name letterA (.absent (by decide))
  have unset : Denotes (fun name => if name = ['a'] then some ['A'] else none) (fun _ => none) ['c'] none := by
    have named : Denotes (fun name => if name = ['a'] then some ['A'] else none) (fun _ => none) ['c'] _ := .name letterC (.absent (by decide))
    simpa using named
  have follows : ∀ c ∈ (['y'] ++ reference ['a'] ++ []).head?, c ≠ OPENING ∧ c ≠ CLOSING := by
    intro c head
    obtain rfl : 'y' = c := some.inj head
    exact ⟨by decide,by decide⟩
  have empty : Expands (fun name => if name = ['a'] then some ['A'] else none) (fun _ => none) Apart [] [] :=
    .literal (by decide) ⟨by decide,.absent (by decide) (by decide),nofun⟩
  have inner : Expands (fun name => if name = ['a'] then some ['A'] else none) (fun _ => none) Apart ['d'] ['d'] :=
    .literal (by decide) ⟨by decide,.absent (by decide) (by decide),nofun⟩
  have second : Expands (fun name => if name = ['a'] then some ['A'] else none) (fun _ => none) Apart (['y'] ++ reference ['a'] ++ []) (['y'] ++ ['A'] ++ []) :=
    .plain (by decide) ⟨by decide,.absent (by decide) (by decide),nofun⟩ letterA (.absent (by decide)) set empty
  have first : Expands (fun name => if name = ['a'] then some ['A'] else none) (fun _ => none) Apart
      (['x'] ++ reference (modifier ['c'] DEFAULT_VALUE ['d']) ++ (['y'] ++ reference ['a'] ++ [])) (['x'] ++ ['d'] ++ (['y'] ++ ['A'] ++ [])) :=
    .nested (by decide) ⟨by decide,.absent (by decide) (by decide),follows⟩ letterC (.absent (by decide))
      (char 'd' (by decide) (by decide)) unset (.inl ⟨rfl,rfl⟩) inner second
  exact (template_expansion fun _ => none).1 _ _ _ first
/-- A closing brace behind a reference: the expansion fails. -/
theorem brace_behind_reference : ¬ ∀ expand_param lookup_filter t r, Expands expand_param lookup_filter (fun _ _ _ => True) t r →
    te_string_expand_parameters expand_param lookup_filter (t.length+1) t = .ok r := by
  intro claim
  have name : BalancedText ['a'] := .plain (by decide) (by decide)
  have expands : Expands (fun _ => some ['A']) (fun _ => none) (fun _ _ _ => True) ([] ++ reference ['a'] ++ ['\x7d']) ([] ++ ['A'] ++ ['\x7d']) :=
    .plain (by decide) trivial name (.absent (by decide)) (.name name (.absent (by decide))) (.literal (by decide) trivial)
  have expanded := claim _ _ _ _ expands
  revert expanded
  decide
end

end TestEnvironment.Tools
