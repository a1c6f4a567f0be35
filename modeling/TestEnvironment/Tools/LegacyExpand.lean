import TestEnvironment.Tools.Expansion

/-!
The deprecated interface of the expansion (`te_expand_parameters` of `te_expand.c`) against
`te_string_expand_parameters` with a callback that appends the values. The callback of the
deprecated interface only tells whether there is a value.
-/
namespace TestEnvironment.Tools
open Lib

section
variable (posargs : Option (Fin 10 → Option CStr)) (get_param_value : CStr → Option CStr)
  (lookup_filter : CStr → Option (CStr → Except ExpandError CStr))

def get_positional_arg (param_name : CStr) : Option CStr :=
  match posargs,param_name with
  | some posargs,[c] => if c.isDigit then posargs (Fin.ofNat 10 (c.toNat - '0'.toNat)) else none
  | _,_ => none
/-- The value is looked up and returned as a flag; no text is appended. -/
def legacy_expand (param_name : CStr) : Option CStr :=
  let value := (get_positional_arg posargs param_name).orElse fun _ => get_param_value param_name
  if value.isSome then some [] else none
/-- The string, or the status for which there is none. -/
def te_expand_parameters (src : CStr) : Except ExpandError CStr :=
  te_string_expand_parameters (legacy_expand posargs get_param_value) lookup_filter (src.length+1) src
/-- A callback that appends the positional argument, or else the value of the getter. -/
def appendingExpand (param_name : CStr) : Option CStr :=
  (get_positional_arg posargs param_name).orElse fun _ => get_param_value param_name
end

section
variable (expand_param : CStr → Option CStr) (lookup_filter : CStr → Option (CStr → Except ExpandError CStr))

/-- What stands at the first reference of a string: nothing without one, or the text before it
with its name, its modifier and the string behind it, if it is one. -/
inductive FirstReference
  | absent
  | malformed (before : CStr)
  | reference (before name : CStr) (default_value : Option CStr) (tail' : CStr)
def firstReference (src : CStr) : FirstReference :=
  match strstr [VARREF,OPENING] src with
  | none => .absent
  | some (before,behind) => match te_strpbrk_balanced (OPENING :: behind) OPENING CLOSING none with
    | .found reference tail' => match splitReference ((reference.drop 1).take (reference.length-2)) with
      | .ok (name,default_value) => .reference before name default_value tail'
      | .error _ => .malformed before
    | _ => .malformed before
/-- The name that the callback is asked for, behind all filters; an unknown filter is an error before. -/
def asked : Nat → CStr → Option CStr
  | 0, _ => none
  | fuel+1, ref =>
    match te_strpbrk_rev_balanced ref OPENING CLOSING [FILTER] with
    | .TE_EILSEQ => none
    | .TE_ENOENT => some ref
    | .found before filter => if (lookup_filter (filter.drop 1)).isSome then asked fuel before else none
/-- The value of the modifier, if it takes the place of the text. -/
def nestedValue : Option CStr → Except ExpandError CStr → Option CStr
  | some (mode :: value), .ok _ => if mode = ALTERNATE_VALUE then some value else none
  | some (mode :: value), .error .TE_ENODATA => if mode = DEFAULT_VALUE then some value else none
  | _, _ => none
/-- A name of a reference with the mode of its modifier. -/
structure Reference where
  name : CStr
  mode : Option Char
  deriving DecidableEq, Repr
/-- The references that an expansion meets, up to an error. -/
def reached : Nat → CStr → List Reference
  | 0, _ => []
  | fuel+1, src =>
    match firstReference src with
    | .reference _ name default_value tail' =>
      let expanded := expand_with_filter expand_param lookup_filter (name.length+1) name
      let nested := match nestedValue default_value expanded with
        | some value => reached fuel value
        | none => []
      let onward := match modifiedText (te_string_expand_parameters expand_param lookup_filter fuel) default_value expanded with
        | .ok _ => reached fuel tail'
        | .error _ => []
      ⟨name,default_value.bind List.head?⟩ :: (nested ++ onward)
    | _ => []
def Unfiltered (r : Reference) : Prop := ∀ before filter, te_strpbrk_rev_balanced r.name OPENING CLOSING [FILTER] ≠ .found before filter
/-- The parameter has no value or an empty one, or its text only gives way to an alternate value. -/
def Harmless (r : Reference) : Prop :=
  ∀ name ∈ asked lookup_filter (r.name.length+1) r.name,
    expand_param name = none ∨ expand_param name = some [] ∨ r.mode = some ALTERNATE_VALUE ∧ Unfiltered r
end

section
variable {full bare : CStr → Option CStr} {lookup_filter : CStr → Option (CStr → Except ExpandError CStr)} {name src : CStr} {fuel : Nat}

/-- A callback that finds the same names and appends nothing. -/
def Silenced (full bare : CStr → Option CStr) : Prop := ∀ name, bare name = (full name).map fun _ => []
theorem legacy_silenced (posargs : Option (Fin 10 → Option CStr)) (get_param_value : CStr → Option CStr) :
    Silenced (appendingExpand posargs get_param_value) (legacy_expand posargs get_param_value) := by
  intro name
  rw [legacy_expand,appendingExpand]
  cases (get_positional_arg posargs name).orElse fun _ => get_param_value name <;> rfl
/-- The filters see of the callback only the text for one name. -/
theorem asked_only (same : ∀ n ∈ asked lookup_filter fuel name, full n = bare n) :
    expand_with_filter full lookup_filter fuel name = expand_with_filter bare lookup_filter fuel name := by
  induction fuel generalizing name with
  | zero => rfl
  | succ fuel ih =>
    rw [asked] at same
    rw [expand_with_filter,expand_with_filter]
    cases search : te_strpbrk_rev_balanced name OPENING CLOSING [FILTER] with
    | TE_EILSEQ => rfl
    | TE_ENOENT =>
      rw [search] at same
      simp only [same name rfl]
    | found before filter => grind
variable {mode : Option Char} {p q : Prop}

/-- Without filters the text of a name is what the callback appends. -/
theorem unfiltered_text (unfiltered : Unfiltered ⟨name,mode⟩) :
    (∀ expand_param, expand_with_filter expand_param lookup_filter (fuel+1) name = .error .TE_EILSEQ) ∧ asked lookup_filter (fuel+1) name = none ∨
    (∀ expand_param, expand_with_filter expand_param lookup_filter (fuel+1) name =
      match expand_param name with | some text => .ok text | none => .error .TE_ENODATA) ∧ asked lookup_filter (fuel+1) name = some name := by
  simp only [expand_with_filter,asked]
  cases search : te_strpbrk_rev_balanced name OPENING CLOSING [FILTER] with
  | TE_EILSEQ => exact .inl ⟨fun _ => rfl,rfl⟩
  | TE_ENOENT => exact .inr ⟨fun _ => rfl,rfl⟩
  | found before filter => exact absurd search (unfiltered before filter)
/-- The text of a name itself, where nothing takes its place. -/
def ownText : Except ExpandError CStr → Except ExpandError CStr
  | .ok text => .ok text
  | .error .TE_ENODATA => .ok []
  | .error e => .error e
theorem modifiedText_nested (expand : CStr → Except ExpandError CStr) (default_value : Option CStr) (expanded : Except ExpandError CStr) :
    modifiedText expand default_value expanded = match nestedValue default_value expanded with
      | some value => expand value
      | none => ownText expanded := by
  rcases default_value with _ | _ | ⟨mode,value⟩
  · cases expanded with
    | ok text => rfl
    | error e => cases e <;> rfl
  · cases expanded with
    | ok text => rfl
    | error e => cases e <;> rfl
  · cases expanded with
    | ok text =>
      simp only [modifiedText,nestedValue]
      split <;> rfl
    | error e =>
      cases e with
      | TE_ENODATA =>
        simp only [modifiedText,nestedValue]
        split <;> rfl
      | TE_EINVAL | TE_EILSEQ | errno | fatal | unfinished => rfl
/-- One step of an expansion, by its first reference. -/
theorem expand_first (expand_param : CStr → Option CStr) (fuel : Nat) (src : CStr) :
    te_string_expand_parameters expand_param lookup_filter (fuel+1) src = match firstReference src with
      | .absent => appendText src
      | .malformed before => (appendPrec before.length src).bind fun _ => .error .TE_EINVAL
      | .reference before name default_value tail' =>
        (appendPrec before.length src).bind fun literal =>
          ((modifiedText (te_string_expand_parameters expand_param lookup_filter fuel) default_value
            (expand_with_filter expand_param lookup_filter (name.length+1) name)).mapError referenceError).bind fun value =>
          (te_string_expand_parameters expand_param lookup_filter fuel tail').bind fun rest => .ok (literal ++ value ++ rest) := by
  rw [te_string_expand_parameters,firstReference]
  cases strstr [VARREF,OPENING] src with
  | none => rfl
  | some cut =>
    obtain ⟨before,behind⟩ := cut
    simp only [process_reference]
    cases search : te_strpbrk_balanced (OPENING :: behind) OPENING CLOSING none with
    | TE_ENOENT | TE_EILSEQ =>
      dsimp only
      generalize appendPrec before.length src = literal
      cases literal <;> rfl
    | found reference tail' =>
      simp only
      cases split : splitReference ((reference.drop 1).take (reference.length-2)) with
      | error e =>
        rw [splitReference] at split
        have same : e = .TE_EINVAL := by
          split at split
          · exact (Except.error.inj split).symm
          · cases split
          · dsimp only at split
            split_ifs at split
            exact (Except.error.inj split).symm
        subst same
        dsimp only
        generalize appendPrec before.length src = literal
        cases literal <;> rfl
      | ok parts =>
        obtain ⟨name,default_value⟩ := parts
        dsimp only
        generalize appendPrec before.length src = literal
        cases literal with
        | error e => rfl
        | ok literal =>
          simp only [bind,Except.bind]
          cases modifiedText (te_string_expand_parameters expand_param lookup_filter fuel) default_value
            (expand_with_filter expand_param lookup_filter (name.length+1) name) <;> rfl
theorem nestedValue_found (default_value : Option CStr) (text text' : CStr) :
    nestedValue default_value (.ok text) = nestedValue default_value (.ok text') := by
  rcases default_value with _ | _ | ⟨mode,value⟩ <;> rfl
/-- A harmless reference reads the same, or gives way to an alternate value. -/
theorem harmless_text (silenced : Silenced full bare) (harmless : Harmless full lookup_filter ⟨name,mode⟩) :
    expand_with_filter full lookup_filter (name.length+1) name = expand_with_filter bare lookup_filter (name.length+1) name ∨
    mode = some ALTERNATE_VALUE ∧ ∃ text, expand_with_filter full lookup_filter (name.length+1) name = .ok text ∧
      expand_with_filter bare lookup_filter (name.length+1) name = .ok [] := by
  have equal (same : ∀ n ∈ asked lookup_filter (name.length+1) name, full n = none ∨ full n = some []) :
      expand_with_filter full lookup_filter (name.length+1) name = expand_with_filter bare lookup_filter (name.length+1) name := by
    refine asked_only fun n member => ?_
    rcases same n member with none' | empty
    · rw [silenced,none']; rfl
    · rw [silenced,empty]; rfl
  cases question : asked lookup_filter (name.length+1) name with
  | none => grind
  | some n =>
    rcases harmless n question with none' | empty | ⟨alternate,unfiltered⟩
    · grind
    · grind
    · rcases @unfiltered_text lookup_filter name name.length mode unfiltered with ⟨invalid,-⟩ | ⟨texts,-⟩
      · exact .inl (by rw [invalid,invalid])
      · cases value : full name with
        | none => exact .inl (by rw [texts,texts,silenced,value]; rfl)
        | some text => exact .inr ⟨alternate,text,by rw [texts,value],by rw [texts,silenced,value]; rfl⟩
/-- Behind an error nothing is expanded. -/
theorem failed_same (literal : Except ExpandError CStr) (e : ExpandError) (onward onward' : CStr → CStr → Except ExpandError CStr) :
    (literal.bind fun literal => ((Except.error e).mapError referenceError).bind (onward literal)) =
      literal.bind fun literal => ((Except.error e).mapError referenceError).bind (onward' literal) := by
  cases literal <;> rfl
/-- The expansions agree where every reference is harmless. -/
theorem harmless_agrees (silenced : Silenced full bare) (harmless : ∀ r ∈ reached full lookup_filter fuel src, Harmless full lookup_filter r) :
    te_string_expand_parameters full lookup_filter fuel src = te_string_expand_parameters bare lookup_filter fuel src := by
  induction fuel generalizing src with
  | zero => rw [te_string_expand_parameters,te_string_expand_parameters]
  | succ fuel ih =>
    rw [expand_first,expand_first]
    rw [reached] at harmless
    cases first : firstReference src with
    | absent => dsimp only
    | malformed before => dsimp only
    | reference before name default_value tail' =>
      rw [first] at harmless
      simp only at harmless ⊢
      have own := harmless_text silenced (harmless _ (mem_cons_self))
      have sameNested : nestedValue default_value (expand_with_filter full lookup_filter (name.length+1) name) =
          nestedValue default_value (expand_with_filter bare lookup_filter (name.length+1) name) := by
        rcases own with same | ⟨-,text,found,bare⟩
        · rw [same]
        · rw [found,bare]
          exact nestedValue_found default_value text []
      have texts : modifiedText (te_string_expand_parameters full lookup_filter fuel) default_value
            (expand_with_filter full lookup_filter (name.length+1) name) =
          modifiedText (te_string_expand_parameters bare lookup_filter fuel) default_value
            (expand_with_filter bare lookup_filter (name.length+1) name) := by
        rw [modifiedText_nested,modifiedText_nested,← sameNested]
        cases nested : nestedValue default_value (expand_with_filter full lookup_filter (name.length+1) name) with
        | some value =>
          exact ih fun r member => harmless r (mem_cons_of_mem _ (mem_append_left _ (by rw [nested]; exact member)))
        | none =>
          rcases own with same | ⟨alternate,text,found,-⟩
          · rw [same]
          · -- an alternate value would be nested
            obtain ⟨value,rfl⟩ : ∃ value, default_value = some (ALTERNATE_VALUE :: value) := by
              rcases default_value with _ | _ | ⟨mode,value⟩
              · cases alternate
              · cases alternate
              · exact ⟨value,by rw [some.inj alternate]⟩
            rw [found,nestedValue,if_pos rfl] at nested
            cases nested
      rw [← texts]
      cases result : modifiedText (te_string_expand_parameters full lookup_filter fuel) default_value
          (expand_with_filter full lookup_filter (name.length+1) name) with
      | error e => exact failed_same _ e _ _
      | ok text =>
        rw [ih fun r member => harmless r (mem_cons_of_mem _ (mem_append_right _ (by rw [result]; exact member)))]

/-- An expansion against one that drops texts: the same error, or a text that is no longer, and as
long only under the condition. -/
inductive Shrunk (harmless : Prop) : Except ExpandError CStr → Except ExpandError CStr → Prop
  | ok {text text' : CStr} (shorter : text'.length ≤ text.length) (same : text'.length = text.length → harmless) : Shrunk harmless (.ok text) (.ok text')
  | error (e : ExpandError) : Shrunk harmless (.error e) (.error e)
theorem Shrunk.refl {harmless : Prop} (holds : harmless) (result : Except ExpandError CStr) : Shrunk harmless result result := by
  cases result with
  | error e => exact .error e
  | ok text => exact .ok le_rfl fun _ => holds
theorem Shrunk.mono {a b : Except ExpandError CStr} (shrunk : Shrunk p a b) (more : p → q) : Shrunk q a b := by
  cases shrunk with
  | ok shorter same => exact .ok shorter fun equal => more (same equal)
  | error e => exact .error e
theorem Shrunk.joined {first first' rest rest' : Except ExpandError CStr} (literal : Except ExpandError CStr)
    (shrunk : Shrunk p first first') (behind : ∀ text, first = .ok text → Shrunk q rest rest') : Shrunk (p ∧ q)
      (literal.bind fun literal => (first.mapError referenceError).bind fun value => rest.bind fun rest => .ok (literal ++ value ++ rest))
      (literal.bind fun literal => (first'.mapError referenceError).bind fun value => rest'.bind fun rest => .ok (literal ++ value ++ rest)) := by
  cases literal with
  | error e => exact .error e
  | ok literal =>
    cases shrunk with
    | error e => exact .error (referenceError e)
    | ok shorter same =>
      cases behind _ rfl with
      | error e => exact .error e
      | ok shorter' same' =>
        refine .ok ?_ fun equal => ⟨same ?_,same' ?_⟩
        · simp only [length_append]
          omega
        · simp only [length_append] at equal
          omega
        · simp only [length_append] at equal
          omega
/-- Without filters, every value that is not empty and not replaced makes the expansion shorter. -/
theorem unfiltered_shrinks (silenced : Silenced full bare) (unfiltered : ∀ r ∈ reached full lookup_filter fuel src, Unfiltered r) :
    Shrunk (∀ r ∈ reached full lookup_filter fuel src, Harmless full lookup_filter r)
      (te_string_expand_parameters full lookup_filter fuel src) (te_string_expand_parameters bare lookup_filter fuel src) := by
  induction fuel generalizing src with
  | zero => exact .error _
  | succ fuel ih =>
    rw [expand_first,expand_first]
    rw [reached] at unfiltered ⊢
    cases first : firstReference src with
    | absent | malformed before =>
      exact Shrunk.refl (by simp) _
    | reference before name default_value tail' =>
      rw [first] at unfiltered
      simp only [forall_mem_cons,List.forall_mem_append] at unfiltered ⊢
      obtain ⟨plain,unfilteredNested,unfilteredOnward⟩ := unfiltered
      refine (Shrunk.joined (p := Harmless full lookup_filter ⟨name,default_value.bind List.head?⟩ ∧ _) _ ?_ ?_).mono fun both => ⟨both.1.1,both.1.2,both.2⟩
      · rw [modifiedText_nested,modifiedText_nested]
        rcases @unfiltered_text lookup_filter name name.length _ plain with ⟨invalid,question⟩ | ⟨texts,question⟩
        · -- the name is not read
          rw [invalid,invalid]
          have ended : nestedValue default_value (.error .TE_EILSEQ) = none := by
            rcases default_value with _ | _ | ⟨mode,value⟩ <;> rfl
          rw [ended]
          exact .refl ⟨fun n member => (by rw [question] at member; cases member),by simp⟩ _
        · have harmless (holds : full name = none ∨ full name = some [] ∨
              default_value.bind List.head? = some ALTERNATE_VALUE ∧ Unfiltered ⟨name,default_value.bind List.head?⟩) :
              Harmless full lookup_filter ⟨name,default_value.bind List.head?⟩ := by
            intro n member
            rw [question] at member
            rwa [← some.inj member]
          have found (value : CStr) (takes : nestedValue default_value (.ok []) = some value) : default_value.bind List.head? = some ALTERNATE_VALUE := by
            rcases default_value with _ | _ | ⟨mode,nested⟩
            · cases takes
            · cases takes
            · rw [nestedValue] at takes
              split_ifs at takes with alternate
              rw [alternate]
              rfl
          rw [texts] at unfilteredNested ⊢
          rw [texts bare,silenced]
          cases value : full name with
          | none =>
            rw [value] at unfilteredNested
            simp only [map_none] at unfilteredNested ⊢
            cases nested : nestedValue default_value (.error .TE_ENODATA) with
            | none => exact Shrunk.refl ⟨harmless (.inl value),by simp⟩ _
            | some inner =>
              rw [nested] at unfilteredNested
              exact (ih unfilteredNested).mono fun all => ⟨harmless (.inl value),all⟩
          | some text =>
            rw [value] at unfilteredNested
            simp only [map_some,nestedValue_found default_value text []] at unfilteredNested ⊢
            cases nested : nestedValue default_value (.ok []) with
            | none => exact .ok (Nat.zero_le _) fun empty => ⟨harmless (.inr (.inl (by rw [value,length_eq_zero_iff.mp empty.symm]))),by simp⟩
            | some inner =>
              rw [nested] at unfilteredNested
              exact (ih unfilteredNested).mono fun all => ⟨harmless (.inr (.inr ⟨found inner nested,plain⟩)),all⟩
      · intro text result
        rw [result] at unfilteredOnward ⊢
        exact ih unfilteredOnward
end

section
variable {expand_param : CStr → Option CStr} {lookup_filter : CStr → Option (CStr → Except ExpandError CStr)} {name src : CStr}

variable {default_value : Option CStr}

end

section
variable (lookup_filter : CStr → Option (CStr → Except ExpandError CStr)) (posargs : Option (Fin 10 → Option CStr)) (get_param_value : CStr → Option CStr)

/-- Both interfaces give the same status and string. -/
def InterfacesAgree (src : CStr) : Prop :=
  te_expand_parameters posargs get_param_value lookup_filter src =
    te_string_expand_parameters (appendingExpand posargs get_param_value) lookup_filter (src.length+1) src
/-- The interfaces agree where every parameter met is without a value, or with an empty one, or only
gives way to an alternate value. Without filters they agree nowhere else, but for a common error. -/
theorem interfaces_agree_iff (src : CStr) :
    ((∀ r ∈ reached (appendingExpand posargs get_param_value) lookup_filter (src.length+1) src,
        Harmless (appendingExpand posargs get_param_value) lookup_filter r) → InterfacesAgree lookup_filter posargs get_param_value src) ∧
    ((∀ r ∈ reached (appendingExpand posargs get_param_value) lookup_filter (src.length+1) src, Unfiltered r) →
      (InterfacesAgree lookup_filter posargs get_param_value src ↔
        (∃ e, te_string_expand_parameters (appendingExpand posargs get_param_value) lookup_filter (src.length+1) src = .error e) ∨
        ∀ r ∈ reached (appendingExpand posargs get_param_value) lookup_filter (src.length+1) src,
          Harmless (appendingExpand posargs get_param_value) lookup_filter r)) := by
  have silenced := legacy_silenced posargs get_param_value
  have enough (harmless : ∀ r ∈ reached (appendingExpand posargs get_param_value) lookup_filter (src.length+1) src,
      Harmless (appendingExpand posargs get_param_value) lookup_filter r) : InterfacesAgree lookup_filter posargs get_param_value src :=
    (harmless_agrees silenced harmless).symm
  refine ⟨enough,fun unfiltered => ⟨?_,?_⟩⟩
  · intro agree
    have shrunk := unfiltered_shrinks silenced unfiltered
    rw [InterfacesAgree,te_expand_parameters] at agree
    rw [agree] at shrunk
    generalize te_string_expand_parameters (appendingExpand posargs get_param_value) lookup_filter (src.length+1) src = result at shrunk
    cases shrunk with
    | error e => exact .inl ⟨e,rfl⟩
    | ok _ same => exact .inr (same rfl)
  · rintro (⟨e,failed⟩ | harmless)
    · have shrunk := unfiltered_shrinks silenced unfiltered
      rw [failed] at shrunk
      rw [InterfacesAgree,te_expand_parameters,failed]
      generalize te_string_expand_parameters (legacy_expand posargs get_param_value) lookup_filter (src.length+1) src = result at shrunk ⊢
      cases shrunk
      rfl
    · exact enough harmless
/-- The value of a parameter is dropped. -/
theorem legacy_drops_value : ¬ InterfacesAgree (fun _ => none) none (fun _ => some ['x']) ['$','\x7b','A','\x7d'] := by
  rw [InterfacesAgree]
  decide +kernel
end
end TestEnvironment.Tools
