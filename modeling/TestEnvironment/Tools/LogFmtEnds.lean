import TestEnvironment.Lib.CutOff
import TestEnvironment.Tools.LogRecords

/-!
Where `te_log_vprintf` leaves a format: behind the flags of a conversion that has nothing else, and behind a `T`.
-/
namespace TestEnvironment.Tools.LogFmt
open Lib

section
variable {modifier : Option Char} {ap ap' : List VaArg} {s rest : CStr} {found : Conversion}

/-- The specifiers of one character. -/
def specifiers : CStr := ['r','c','s','p','d','i','o','u','x','X','e','E','f','F','g','G','a','A','%']
/-- The text from the specifier on. -/
def behindModifier (s : CStr) : CStr := (lengthModifier (skipPrecision ((s.dropWhile (· ∈ flags)).dropWhile isdigit))).2
def vprintfFails (s : CStr) (cost : Nat) : Prop := cost = 0 ∧ (s.dropWhile (· ∈ flags) = [] ∨ behindModifier s = ['T'])
def vprintfPasses (s rest : CStr) (cost : Nat) : Prop :=
  cost = 0 ∧ ((∃ c ∈ specifiers, behindModifier s = c :: rest) ∨ ∃ c, behindModifier s = 'T' :: c :: rest)

theorem skipFlags_eq (s : CStr) : skipFlags s = if s.dropWhile (· ∈ flags) = [] then .error .overrun else .ok (s.dropWhile (· ∈ flags)) := by
  induction s with
  | nil => rfl
  | cons c s ih =>
    rw [skipFlags,List.dropWhile_cons]
    by_cases flag : c ∈ flags
    · rw [if_pos flag,if_pos (decide_eq_true flag),ih]
    · simp [flag]
theorem conversion_eq (ap : List VaArg) (s : CStr) : conversion ap s =
    if s.dropWhile (· ∈ flags) = [] then .error .overrun
    else convert (lengthModifier (skipPrecision ((s.dropWhile (· ∈ flags)).dropWhile isdigit))).1 ap (behindModifier s) := by
  rw [conversion,skipFlags_eq]
  by_cases none : s.dropWhile (· ∈ flags) = []
  · rw [if_pos none,if_pos none]
    rfl
  · rw [if_neg none,if_neg none]
    rfl
theorem specifier_of {c : Char} {l : CStr} (all : l.all (· ∈ specifiers) = true) (member : c ∈ l) : c ∈ specifiers :=
  of_decide_eq_true (all_eq_true.mp all c member)
theorem convert_overrun (result : convert modifier ap s = .error .overrun) : s = ['T'] := by
  unfold convert at result
  split at result
  · cases result
  · rfl
  · split_ifs at result
    · split at result <;> cases result
    · split at result <;> cases result
  · split_ifs at result
    · unfold intArg at result
      split at result <;> cases result
    · split at result
      · dsimp only at result
        rw [cString] at result
        split_ifs at result <;> cases result
      · cases result
    · cases ap <;> cases result
    · cases ap <;> cases result
    · cases result
theorem convert_passes (result : convert modifier ap s = .ok (found,ap',rest)) :
    (∃ c ∈ specifiers, s = c :: rest) ∨ ∃ c, s = 'T' :: c :: rest := by
  unfold convert at result
  split at result
  · cases result
  · cases result
  · rename_i c s
    refine .inr ⟨c,?_⟩
    split_ifs at result
    · split at result <;> cases result
      rfl
    · split at result <;> cases result
      rfl
    · cases result
      rfl
  · rename_i c s _ _
    refine .inl ⟨c,?_⟩
    split_ifs at result with number string integer float percent percent
    · obtain rfl := (intArg_found result).2
      exact ⟨by rcases number with rfl | rfl <;> decide,rfl⟩
    · subst string
      split at result
      · dsimp only at result
        rw [cString] at result
        split_ifs at result <;> cases result
        exact ⟨by decide,rfl⟩
      · cases result
    · obtain rfl := (skipArg_found result).2
      exact ⟨specifier_of (by decide) integer,rfl⟩
    · obtain rfl := (skipArg_found result).2
      exact ⟨specifier_of (by decide) float,rfl⟩
    · cases result
      exact ⟨specifier_of (by decide) float,rfl⟩
    · subst percent
      cases result
      exact ⟨by decide,rfl⟩
theorem convert_args (known : (∃ c ∈ specifiers, s = c :: rest) ∨ ∃ c, s = 'T' :: c :: rest) (modifier : Option Char) :
    ∃ args, ∀ ap, ∃ found, convert modifier (args ++ ap) s = .ok (found,ap,rest) := by
  rcases known with ⟨c,member,rfl⟩ | ⟨c,rfl⟩
  · have float (c : Char) (same : ∀ args, convert modifier args (c :: rest) =
        if modifier = some 'L' ∨ modifier = none then skipArg rest args else .ok (.printed,args,rest)) :
        ∃ args, ∀ ap, ∃ found, convert modifier (args ++ ap) (c :: rest) = .ok (found,ap,rest) := by
      by_cases long : modifier = some 'L' ∨ modifier = none
      · exact ⟨[.other 0],fun ap => ⟨_,(same _).trans (if_pos long)⟩⟩
      · exact ⟨[],fun ap => ⟨_,(same _).trans (if_neg long)⟩⟩
    simp only [specifiers,mem_cons,not_mem_nil,or_false] at member
    rcases member with rfl | rfl | rfl | rfl | rfl | rfl | rfl | rfl | rfl | rfl | rfl | rfl | rfl | rfl | rfl | rfl | rfl | rfl | rfl
    · exact ⟨[.int 0],fun ap => ⟨_,rfl⟩⟩
    · exact ⟨[.int 0],fun ap => ⟨_,rfl⟩⟩
    · exact ⟨[.pointer (some [0])],fun ap => ⟨_,rfl⟩⟩
    iterate 7 exact ⟨[.other 0],fun ap => ⟨_,rfl⟩⟩
    iterate 8 exact float _ fun _ => rfl
    exact ⟨[],fun ap => ⟨_,rfl⟩⟩
  · by_cases dump : c = 'm'
    · subst dump
      exact ⟨[.pointer none,.int 0],fun ap => ⟨_,rfl⟩⟩
    · by_cases file : c = 'f'
      · subst file
        exact ⟨[.pointer none],fun ap => ⟨_,rfl⟩⟩
      · refine ⟨[],fun ap => ⟨.plain,?_⟩⟩
        show (if c = 'm' then _ else if c = 'f' then _ else _) = _
        rw [if_neg dump,if_neg file]
        rfl
end

section
variable {σ : Type} {out : MsgOut σ} {fuel n : Nat} {front fmt : CStr} {fmt_needed : Bool} {ap_start ap : List VaArg} {state : σ}

/-- A backend that reads nothing behind the format. -/
structure Within (out : MsgOut σ) : Prop where
  fmt : ∀ fmt ap state, out.fmt fmt ap state ≠ .error .overrun
  raw : ∀ piece arg state, out.raw piece arg state ≠ .error .overrun
/-- Whatever the arguments and the backend are, the format is not read behind its end. -/
def VprintfEnds (fmt : CStr) : Prop :=
  ∀ (σ : Type) (out : MsgOut σ) (ap : List VaArg) (state : σ), Within out → te_log_vprintf out (some fmt) ap state ≠ .error .overrun

theorem flush_within (within : Within out) : flush out fmt_needed front ap_start state ≠ .error .overrun := by
  cases fmt_needed with
  | true => exact within.fmt _ _ _
  | false => exact nofun
theorem bind_overrun {α β : Type} {x : Except LogStop α} {f : α → Except LogStop β} (result : x >>= f = .error .overrun) :
    x = .error .overrun ∨ ∃ a, x = .ok a ∧ f a = .error .overrun := by
  cases x with
  | error e =>
    cases result
    exact .inl rfl
  | ok a => exact .inr ⟨a,rfl,result⟩
/-- A run that leaves the format comes to a place where it is cut off. -/
theorem overrun_cut (within : Within out) (enough : fmt.length < fuel)
    (result : vprintfLoop out fuel front fmt_needed ap_start ap fmt state = .error .overrun) : CutOff vprintfFails vprintfPasses 0 fmt := by
  induction fuel generalizing front fmt_needed ap_start ap fmt state with
  | zero => exact absurd enough (Nat.not_lt_zero _)
  | succ fuel ih =>
    cases fmt with
    | nil =>
      obtain first | ⟨_,_,second⟩ := bind_overrun result
      · exact absurd first (flush_within within)
      · exact absurd second (within.raw _ _ _)
    | cons c fmt =>
      have shorter : fmt.length < fuel := lt_of_succ_lt_succ enough
      rw [vprintfLoop] at result
      by_cases plain : c ≠ '%'
      · rw [if_pos plain] at result
        exact .text plain (ih shorter result)
      · rw [if_neg plain] at result
        obtain rfl := not_not.mp plain
        obtain first | ⟨⟨found,ap',rest⟩,converted,later⟩ := bind_overrun result
        · rw [conversion_eq] at first
          split_ifs at first with none
          · exact .here ⟨rfl,.inl none⟩
          · exact .here ⟨rfl,.inr (convert_overrun first)⟩
        · obtain ⟨_,rest_shorter⟩ := conversion_found converted
          have passed : vprintfPasses fmt rest 0 := by
            rw [conversion_eq] at converted
            split_ifs at converted
            exact ⟨rfl,convert_passes converted⟩
          refine @CutOff.behind vprintfFails vprintfPasses 0 0 fmt rest passed ?_
          cases found with
          | plain => exact ih (by omega) later
          | printed => exact ih (by omega) later
          | arg arg =>
            obtain first | ⟨_,_,later⟩ := bind_overrun later
            · exact absurd first (flush_within within)
            · obtain first | ⟨_,_,later⟩ := bind_overrun later
              · exact absurd first (within.raw _ _ _)
              · exact ih (by omega) later
/-- A backend that does nothing. -/
def silent : MsgOut Unit := ⟨fun _ _ _ => .ok (),fun _ _ _ => .ok ()⟩
/-- With arguments for the conversions before it, every run comes to the place where the format is cut off. -/
theorem cut_overrun (cut : CutOff vprintfFails vprintfPasses n fmt) :
    ∃ ap, ∀ fuel front fmt_needed ap_start, vprintfLoop silent fuel front fmt_needed ap_start ap fmt () = .error .overrun := by
  induction cut with
  | @here cost s fails =>
    refine ⟨[],fun fuel front fmt_needed ap_start => ?_⟩
    cases fuel with
    | zero => rfl
    | succ fuel =>
      have overrun : conversion [] s = .error .overrun := by
        rw [conversion_eq]
        by_cases none : s.dropWhile (· ∈ flags) = []
        · exact if_pos none
        · rw [if_neg none,fails.2.resolve_left none]
          rfl
      rw [vprintfLoop,if_neg (fun other => other rfl),overrun]
      rfl
  | text plain later ih =>
    obtain ⟨ap,overrun⟩ := ih
    refine ⟨ap,fun fuel front fmt_needed ap_start => ?_⟩
    cases fuel with
    | zero => rfl
    | succ fuel => rw [vprintfLoop,if_pos plain,overrun]
  | @behind n cost s rest passed later ih =>
    obtain ⟨ap,overrun⟩ := ih
    obtain ⟨_,known⟩ := passed
    obtain ⟨args,converts⟩ := convert_args known (lengthModifier (skipPrecision ((s.dropWhile (· ∈ flags)).dropWhile isdigit))).1
    obtain ⟨found,converted⟩ := converts ap
    refine ⟨args ++ ap,fun fuel front fmt_needed ap_start => ?_⟩
    cases fuel with
    | zero => rfl
    | succ fuel =>
      have some_left : s.dropWhile (· ∈ flags) ≠ [] := by
        intro none
        rw [behindModifier,none] at known
        obtain ⟨_,_,same⟩ | ⟨_,same⟩ := known <;> cases same
      rw [vprintfLoop,if_neg (fun other => other rfl),conversion_eq,if_neg some_left,converted]
      cases found with
      | plain => exact overrun _ _ _ _
      | printed => exact overrun _ _ _ _
      | arg arg =>
        cases fmt_needed with
        | true => exact overrun _ _ _ _
        | false => exact overrun _ _ _ _
theorem vprintfEnds_iff (fmt : CStr) : VprintfEnds fmt ↔ ¬ ∃ n, CutOff vprintfFails vprintfPasses n fmt := by
  constructor
  · rintro ends ⟨n,cut⟩
    obtain ⟨ap,overrun⟩ := cut_overrun cut
    exact ends Unit silent ap () ⟨fun _ _ _ => nofun,fun _ _ _ => nofun⟩ (overrun _ _ _ _)
  · rintro whole σ out ap state within result
    exact whole ⟨0,overrun_cut within (lt_succ_self _) result⟩
end
end TestEnvironment.Tools.LogFmt
