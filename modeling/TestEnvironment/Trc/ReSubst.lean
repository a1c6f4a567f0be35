import TestEnvironment.Lib.Cells
import TestEnvironment.Lib.Strings

/-!
Key substitutions (`re_subst.c` of the TRC tools): the executor that writes to a file and the one that measures, or fills a buffer. The matcher is
whatever `regexec` is; the loops are over fuel, since a match may consume nothing.
-/
namespace TestEnvironment.Trc
open Lib

section
variable {ρ : Type}

/-- `trc_re_match_subst`: a text, or what the match with a number has. -/
inductive TrcReMatchSubst
  | str (str : CStr)
  | match (number : Nat)
structure TrcReSubst (ρ : Type) where
  re : ρ
  with_list : List TrcReMatchSubst
/-- Where a regular expression matches, and where its groups do if they do. -/
structure ReMatches where
  rm_so : Nat
  rm_eo : Nat
  groups : Nat → Option (Nat × Nat)
def ReMatches.at (m : ReMatches) : Nat → Option (Nat × Nat)
  | 0 => some (m.rm_so,m.rm_eo)
  | k+1 => m.groups (k+1)

variable (regexec : ρ → CStr → Option ReMatches)

/-- A match that ends within the part of the string. -/
def execMatch (subst : TrcReSubst ρ) (str : CStr) (max : Nat) : Option ReMatches := (regexec subst.re str).filter fun m => m.rm_eo ≤ max
/-- What one element writes to the file. -/
def putMatch (m : ReMatches) (str : CStr) : TrcReMatchSubst → CStr
  | .str text => text
  | .match number => match m.at number with
    | none => []
    | some (so,eo) => (str.drop so).take (eo-so)
/-- The file behind what has been written. -/
def trc_re_substs_exec : Nat → List (TrcReSubst ρ) → CStr → Nat → Option CStr
  | 0,_,_,_ => none
  | _+1,[],str,max => some (str.take max)
  | fuel+1,subst :: next,str,max => match execMatch regexec subst str max with
    | none => trc_re_substs_exec fuel next str max
    | some m =>
      (if m.rm_so ≠ 0 then trc_re_substs_exec fuel next str m.rm_so else some []).bind fun front =>
        (trc_re_substs_exec fuel (subst :: next) (str.drop m.rm_eo) (max-m.rm_eo)).map fun rest =>
          front ++ subst.with_list.flatMap (putMatch m str) ++ rest

/-- The buffer and the length that has been counted. -/
structure BufOut where
  cells : List Char
  len : Nat
/-- The buffer begins at `buf`, unless it is `NULL`, and has `buf_size` bytes. -/
structure BufPlace where
  buf : Option Nat
  buf_size : Int
/-- `snprintf(buf + len, buf_size - len, "%s", text)`: a negative size is a large one. -/
def putText (place : BufPlace) (text : CStr) (out : BufOut) : BufOut :=
  match place.buf with
  | none => ⟨out.cells,out.len+text.length⟩
  | some buf =>
    let room := place.buf_size-out.len
    ⟨if room = 0 then out.cells
      else if room < 0 then overwrite out.cells (buf+out.len) (text ++ ['\x00'])
      else overwrite out.cells (buf+out.len) (text.take (room-1).toNat ++ ['\x00']),out.len+text.length⟩
/-- The loop that writes character by character. -/
def putChars (place : BufPlace) : CStr → BufOut → BufOut
  | [],out => out
  | c :: text,out => match place.buf with
    | none => putChars place text ⟨out.cells,out.len+1⟩
    | some buf => if out.len < place.buf_size-1 then putChars place text ⟨overwrite out.cells (buf+out.len) [c],out.len+1⟩ else putChars place text out
def putMatchBuf (place : BufPlace) (m : ReMatches) (str : CStr) (out : BufOut) : TrcReMatchSubst → BufOut
  | .str text => putText place text out
  | .match number => match m.at number with
    | none => out
    | some (so,eo) => putChars place ((str.drop so).take (eo-so)) out
/-- The end of the function: the rest of the string and the final null. -/
def finishBuf (place : BufPlace) (str : CStr) (max : Nat) (out : BufOut) : BufOut :=
  let out := putChars place (str.take max) out
  match place.buf with
  | none => out
  | some buf => ⟨overwrite out.cells (buf+out.len) ['\x00'],out.len⟩
/-- From the state of the loops on; a call begins with length 0. -/
def trc_re_substs_exec_buf : Nat → List (TrcReSubst ρ) → CStr → Nat → BufPlace → BufOut → Option BufOut
  | 0,_,_,_,_,_ => none
  | _+1,[],str,max,place,out => some (finishBuf place str max out)
  | fuel+1,subst :: next,str,max,place,out => match execMatch regexec subst str max with
    | none => trc_re_substs_exec_buf fuel next str max place out
    | some m =>
      (if m.rm_so ≠ 0 then
          trc_re_substs_exec_buf fuel next str m.rm_so ⟨place.buf.map (·+out.len),if place.buf.isSome then place.buf_size-out.len else 0⟩ ⟨out.cells,0⟩
        else some ⟨out.cells,0⟩).bind fun called =>
          trc_re_substs_exec_buf fuel (subst :: next) (str.drop m.rm_eo) (max-m.rm_eo) place
            (subst.with_list.foldl (putMatchBuf place m str) ⟨called.cells,out.len+called.len⟩)
end

section
variable {ρ : Type} {regexec : ρ → CStr → Option ReMatches} {substs : List (TrcReSubst ρ)} {str text tail : CStr} {max fuel : Nat} {place : BufPlace}
  {out : BufOut} {m : ReMatches}

/-- What an output becomes by a text: the length counts it, and a buffer with room for it and one byte more begins with it and a tail. -/
structure Put (place : BufPlace) (text tail : CStr) (out out' : BufOut) : Prop where
  measured : place.buf = none → out' = ⟨out.cells,out.len+text.length⟩
  written : ∀ front buf, place.buf = some buf → front <+: out.cells → front.length = buf+out.len → out.len+text.length < place.buf_size →
    buf+place.buf_size ≤ out.cells.length →
    out'.len = out.len+text.length ∧ front ++ text ++ tail <+: out'.cells ∧ out'.cells.length = out.cells.length

theorem Put.append {t u tail' : CStr} {a b c : BufOut} (first : Put place t tail a b) (second : Put place u tail' b c) : Put place (t ++ u) tail' a c where
  measured none_there := by rw [second.measured none_there,first.measured none_there,length_append,Nat.add_assoc]
  written front buf there start place_front room inside := by
    rw [length_append] at room ⊢
    obtain ⟨len,start',same⟩ := first.written front buf there start place_front (by omega) inside
    obtain ⟨len',start'',same'⟩ := second.written (front ++ t) buf there ((prefix_append _ _).trans start') (by rw [length_append]; omega)
      (by omega) (by omega)
    exact ⟨by omega,by rwa [← append_assoc],same'.trans same⟩
theorem Put.nothing : Put place [] [] out out := ⟨fun _ => rfl,fun front _ _ start _ _ _ => ⟨rfl,by simpa using start,rfl⟩⟩
theorem Put.without_tail {out' : BufOut} (put : Put place text tail out out') : Put place text [] out out' where
  measured := put.measured
  written front buf there start place_front room inside := by
    obtain ⟨len,start',same⟩ := put.written front buf there start place_front room inside
    exact ⟨len,by simpa using (prefix_append _ _).trans start',same⟩
theorem putText_put : Put place text [] out (putText place text out) := by
  refine @Put.without_tail _ ['\x00'] _ _ _ ?_
  rw [putText]
  cases buf : place.buf with
  | none => exact ⟨fun _ => rfl,fun _ _ there => by cases buf.symm.trans there⟩
  | some buf' =>
    refine ⟨fun none_there => absurd (buf.symm.trans none_there) nofun,fun front b there start place_front room inside => ?_⟩
    obtain rfl := some.inj (buf.symm.trans there)
    have whole : text.take (place.buf_size-out.len-1).toNat = text := take_of_length_le (by omega)
    dsimp only
    rw [if_neg (by omega),if_neg (by omega),whole,← place_front,append_assoc]
    exact ⟨rfl,overwrite_append start,overwrite_length (by simp only [length_append,length_singleton]; omega)⟩
theorem putChars_put : Put place text [] out (putChars place text out) := by
  induction text generalizing out with
  | nil => exact Put.nothing
  | cons c text ih =>
    rw [putChars]
    cases buf : place.buf with
    | none =>
      have one : Put place [c] [] out ⟨out.cells,out.len+1⟩ := ⟨fun _ => rfl,fun _ _ there => by cases buf.symm.trans there⟩
      exact one.append ih
    | some buf' =>
      by_cases room : (out.len : Int) < place.buf_size-1
      · have one : Put place [c] [] out ⟨overwrite out.cells (buf'+out.len) [c],out.len+1⟩ := by
          refine ⟨fun none_there => absurd (buf.symm.trans none_there) nofun,fun front b there start place_front _ inside => ?_⟩
          obtain rfl := some.inj (buf.symm.trans there)
          dsimp only
          rw [← place_front,append_nil]
          exact ⟨rfl,overwrite_append start,overwrite_length (by rw [length_singleton]; omega)⟩
        dsimp only
        rw [if_pos room]
        exact one.append ih
      · refine ⟨fun none_there => absurd (buf.symm.trans none_there) nofun,fun _ _ _ _ _ more => ?_⟩
        rw [length_cons] at more
        omega
theorem putMatch_put {elements : List TrcReMatchSubst} :
    Put place (elements.flatMap (putMatch m str)) [] out (elements.foldl (putMatchBuf place m str) out) := by
  induction elements generalizing out with
  | nil => exact Put.nothing
  | cons element elements ih =>
    have one : Put place (putMatch m str element) [] out (putMatchBuf place m str out element) := by
      cases element with
      | str text => exact putText_put
      | «match» number =>
        rw [putMatch,putMatchBuf]
        cases m.at number with
        | none => exact Put.nothing
        | some range => exact putChars_put
    exact one.append ih
theorem finish_put : Put place (str.take max) ['\x00'] out (finishBuf place str max out) := by
  have chars : Put place (str.take max) [] out (putChars place (str.take max) out) := putChars_put
  rw [finishBuf]
  refine ⟨fun none_there => ?_,fun front buf there start place_front room inside => ?_⟩
  · rw [none_there]
    exact chars.measured none_there
  · obtain ⟨len,start',same⟩ := chars.written front buf there start place_front room inside
    rw [there]
    dsimp only
    have place_end : buf+(putChars place (str.take max) out).len = (front ++ str.take max ++ []).length := by
      simp only [length_append,length_nil]
      omega
    rw [place_end,append_nil] at *
    exact ⟨len,overwrite_append start',(overwrite_length (by simp only [length_append,length_singleton] at *; omega)).trans same⟩
/-- A call at the end of the output counts and writes there. -/
theorem Put.call {called : BufOut}
    (put : Put ⟨place.buf.map (·+out.len),if place.buf.isSome then place.buf_size-out.len else 0⟩ text tail ⟨out.cells,0⟩ called) :
    Put place text tail out ⟨called.cells,out.len+called.len⟩ := by
  refine ⟨fun none_there => ?_,fun front buf there start place_front room inside => ?_⟩
  · rw [put.measured (by rw [none_there]; rfl),Nat.zero_add]
  · obtain ⟨len,start',same⟩ := put.written front (buf+out.len) (by rw [there]; rfl) start (by omega) (by rw [there]; simp; omega) (by rw [there]; simp; omega)
    dsimp only at len ⊢
    exact ⟨by omega,start',same⟩
/-- Both executors run alike: what one writes to the file, the other one counts and puts into the buffer. -/
theorem exec_put (done : trc_re_substs_exec regexec fuel substs str max = some text) : ∃ out',
    trc_re_substs_exec_buf regexec fuel substs str max place out = some out' ∧ Put place text ['\x00'] out out' := by
  induction fuel generalizing substs str max text place out with
  | zero => cases done
  | succ fuel ih =>
    cases substs with
    | nil =>
      obtain rfl := some.inj done
      exact ⟨_,rfl,finish_put⟩
    | cons subst next =>
      rw [trc_re_substs_exec] at done
      rw [trc_re_substs_exec_buf]
      cases found : execMatch regexec subst str max with
      | none =>
        rw [found] at done
        exact ih done
      | some m =>
        rw [found] at done
        obtain ⟨front,first,done⟩ := of_bind done
        obtain ⟨rest,last,rfl⟩ := of_map done
        obtain ⟨called,call,put⟩ : ∃ called, (if m.rm_so ≠ 0 then trc_re_substs_exec_buf regexec fuel next str m.rm_so
            ⟨place.buf.map (·+out.len),if place.buf.isSome then place.buf_size-out.len else 0⟩ ⟨out.cells,0⟩ else some ⟨out.cells,0⟩) = some called ∧
            Put place front [] out ⟨called.cells,out.len+called.len⟩ := by
          by_cases inner : m.rm_so ≠ 0
          · rw [if_pos inner] at first ⊢
            obtain ⟨called,call,put⟩ := ih first
            exact ⟨called,call,put.call.without_tail⟩
          · rw [if_neg inner] at first ⊢
            obtain rfl := some.inj first
            exact ⟨_,rfl,Put.nothing⟩
        obtain ⟨out',run,put'⟩ := @ih _ _ _ _ place (subst.with_list.foldl (putMatchBuf place m str) ⟨called.cells,out.len+called.len⟩) last
        dsimp only
        rw [call]
        exact ⟨out',run,(put.append putMatch_put).append put'⟩
end

section
variable {ρ : Type} {regexec : ρ → CStr → Option ReMatches} {substs : List (TrcReSubst ρ)} {str text : CStr} {max fuel : Nat} {m : ReMatches}

/-- Where a run of the loops goes from a place in it: to the next substitution, into the part before a match, or behind a match. -/
inductive Goes (regexec : ρ → CStr → Option ReMatches) : List (TrcReSubst ρ) × CStr × Nat → List (TrcReSubst ρ) × CStr × Nat → Prop
  | next {subst next str max} (none_found : execMatch regexec subst str max = none) : Goes regexec (subst :: next,str,max) (next,str,max)
  | front {subst next str max m} (found : execMatch regexec subst str max = some m) (inner : m.rm_so ≠ 0) :
    Goes regexec (subst :: next,str,max) (next,str,m.rm_so)
  | behind {subst next str max m} (found : execMatch regexec subst str max = some m) :
    Goes regexec (subst :: next,str,max) (subst :: next,str.drop m.rm_eo,max-m.rm_eo)
/-- Every match that is met in the run consumes a part of the string. -/
def Consumes (regexec : ρ → CStr → Option ReMatches) (a : List (TrcReSubst ρ) × CStr × Nat) : Prop :=
  ∀ subst next str max m, Relation.ReflTransGen (Goes regexec) a (subst :: next,str,max) → execMatch regexec subst str max = some m → 0 < m.rm_eo
/-- Positions are inside the string. -/
def Inside (regexec : ρ → CStr → Option ReMatches) : Prop :=
  ∀ re str m, regexec re str = some m → ∀ k so eo, m.at k = some (so,eo) → so ≤ eo ∧ eo ≤ str.length

theorem match_places (inside : Inside regexec) {subst : TrcReSubst ρ} (found : execMatch regexec subst str max = some m) : m.rm_so ≤ m.rm_eo ∧ m.rm_eo ≤ max := by
  obtain ⟨here,within⟩ := Option.filter_eq_some_iff.mp found
  exact ⟨(inside _ _ _ here 0 _ _ rfl).1,of_decide_eq_true within⟩
/-- A run whose matches all consume something ends. -/
theorem exec_ends (inside : Inside regexec) (consumes : Consumes regexec (substs,str,max)) (enough : substs.length+max < fuel) :
    ∃ text, trc_re_substs_exec regexec fuel substs str max = some text := by
  induction fuel generalizing substs str max with
  | zero => omega
  | succ fuel ih =>
    cases substs with
    | nil => exact ⟨_,rfl⟩
    | cons subst next =>
      have later {b} (goes : Goes regexec (subst :: next,str,max) b) : Consumes regexec b := fun s n t k m run => consumes s n t k m (.head goes run)
      rw [length_cons] at enough
      rw [trc_re_substs_exec]
      cases found : execMatch regexec subst str max with
      | none => exact ih (later (.next found)) (by omega)
      | some m =>
        have positive := consumes subst next str max m .refl found
        obtain ⟨order,within⟩ := match_places inside found
        obtain ⟨rest,last⟩ := ih (later (.behind found)) (by rw [length_cons]; omega)
        dsimp only
        by_cases inner : m.rm_so ≠ 0
        · obtain ⟨front,first⟩ := ih (later (.front found inner)) (by omega)
          exact ⟨_,by rw [if_pos inner,first,last]; rfl⟩
        · exact ⟨_,by rw [if_neg inner,last]; rfl⟩
/-- A run that reaches a run without end has none. -/
theorem exec_reaches {a b : List (TrcReSubst ρ) × CStr × Nat} (run : Relation.ReflTransGen (Goes regexec) a b)
    (endless : ∀ fuel, trc_re_substs_exec regexec fuel b.1 b.2.1 b.2.2 = none) : ∀ fuel, trc_re_substs_exec regexec fuel a.1 a.2.1 a.2.2 = none := by
  induction run using Relation.ReflTransGen.head_induction_on with
  | refl => exact endless
  | head goes _ ih =>
    intro fuel
    cases fuel with
    | zero => rfl
    | succ fuel =>
      cases goes with
      | next none_found => simpa [trc_re_substs_exec,none_found] using ih fuel
      | front found inner => simp [trc_re_substs_exec,found,inner,ih fuel]
      | behind found =>
        have rest := ih fuel
        simp [trc_re_substs_exec,found,rest]
/-- A match that consumes nothing is found again and again. -/
theorem exec_endless {subst : TrcReSubst ρ} {next : List (TrcReSubst ρ)} (found : execMatch regexec subst str max = some m) (nothing : m.rm_eo = 0) (fuel : Nat) :
    trc_re_substs_exec regexec fuel (subst :: next) str max = none := by
  induction fuel with
  | zero => rfl
  | succ fuel ih => simp [trc_re_substs_exec,found,nothing,ih]
end

section
variable {ρ : Type} (regexec : ρ → CStr → Option ReMatches) (substs : List (TrcReSubst ρ)) (key : CStr)

/-- Both executors end, the first pass counts what is written to the file, and the second one puts just that into a buffer of this length
and one byte more, if and only if every match that is met consumes a part of the key. -/
theorem substitutions_agree (inside : Inside regexec) :
    (∃ text fuel, trc_re_substs_exec regexec fuel substs key key.length = some text ∧
      trc_re_substs_exec_buf regexec fuel substs key key.length ⟨none,0⟩ ⟨[],0⟩ = some ⟨[],text.length⟩ ∧
      ∀ cells : List Char, cells.length = text.length+1 →
        trc_re_substs_exec_buf regexec fuel substs key key.length ⟨some 0,text.length+1⟩ ⟨cells,0⟩ = some ⟨text ++ ['\x00'],text.length⟩) ↔
    Consumes regexec (substs,key,key.length) := by
  constructor
  · rintro ⟨text,fuel,done,-⟩ subst next str max m run found
    by_contra none_consumed
    cases done.symm.trans (exec_reaches run (exec_endless found (by omega)) fuel)
  · intro consumes
    obtain ⟨text,done⟩ := exec_ends inside consumes (lt_succ_self _)
    refine ⟨text,_,done,?_,fun cells size => ?_⟩
    · obtain ⟨out,run,put⟩ := @exec_put _ _ _ _ _ _ _ ⟨none,0⟩ ⟨[],0⟩ done
      rw [run,put.measured rfl,Nat.zero_add]
    · obtain ⟨out,run,put⟩ := @exec_put _ _ _ _ _ _ _ ⟨some 0,text.length+1⟩ ⟨cells,0⟩ done
      obtain ⟨len,start,same⟩ := put.written [] 0 rfl nil_prefix rfl (by dsimp only; omega) (by dsimp only; omega)
      have whole : text ++ ['\x00'] = out.cells := start.eq_of_length (by simp [same,size])
      rw [run,whole,← Nat.zero_add text.length,← len]

/-- The expression `c` of one character. -/
def findChar (c : Char) (str : CStr) : Option ReMatches := if c ∈ str then some ⟨str.idxOf c,str.idxOf c+1,fun _ => none⟩ else none
theorem findChar_inside : Inside findChar := by
  intro c str m found k so eo place
  rw [findChar] at found
  split_ifs at found with there
  obtain rfl := some.inj found
  cases k with
  | zero =>
    obtain ⟨rfl,rfl⟩ := of_pair place
    exact ⟨le_succ _,List.idxOf_lt_length_of_mem there⟩
  | succ k => cases place
theorem substitutions_agree_char : ∃ text fuel,
    trc_re_substs_exec findChar fuel [⟨'-',[.str "_".toList]⟩] "a-b-".toList 4 = some text ∧
    trc_re_substs_exec_buf findChar fuel [⟨'-',[.str "_".toList]⟩] "a-b-".toList 4 ⟨none,0⟩ ⟨[],0⟩ = some ⟨[],text.length⟩ ∧
    ∀ cells : List Char, cells.length = text.length+1 →
      trc_re_substs_exec_buf findChar fuel [⟨'-',[.str "_".toList]⟩] "a-b-".toList 4 ⟨some 0,text.length+1⟩ ⟨cells,0⟩ = some ⟨text ++ ['\x00'],text.length⟩ := by
  refine (substitutions_agree findChar [⟨'-',[.str "_".toList]⟩] "a-b-".toList findChar_inside).mpr ?_
  intro subst next str max m _ found
  obtain ⟨here,-⟩ := Option.filter_eq_some_iff.mp found
  rw [findChar] at here
  split_ifs at here
  obtain rfl := some.inj here
  exact Nat.succ_pos _
/-- An expression that matches the empty string, as `x*` does in front of an `a`. -/
theorem empty_match_endless : Inside (fun (_ : Unit) _ => some ⟨0,0,fun _ => none⟩) ∧
    ¬∃ fuel text, trc_re_substs_exec (fun _ _ => some ⟨0,0,fun _ => none⟩) fuel [⟨(),[.str "b".toList]⟩] "a".toList 1 = some text := by
  refine ⟨?_,?_⟩
  · rintro _ str m found k so eo place
    obtain rfl := some.inj found
    cases k with
    | zero =>
      obtain ⟨rfl,rfl⟩ := of_pair place
      exact ⟨le_rfl,Nat.zero_le _⟩
    | succ k => cases place
  · rintro ⟨fuel,text,done⟩
    cases done.symm.trans (exec_endless (m := ⟨0,0,fun _ => none⟩) rfl rfl fuel)
end
end TestEnvironment.Trc
