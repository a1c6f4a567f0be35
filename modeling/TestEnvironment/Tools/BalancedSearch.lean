import TestEnvironment.Tools.Expand
import TestEnvironment.Lib.BracketScan

/-!
The searches for a character outside brackets, with an escape character (`te_str.c`). Both read
the text as bare and escaped characters, one from its beginning and the other from its end, and
scan these with the level as the counter.
-/
namespace TestEnvironment.Tools.Strpbrk
open Lib

section
variable (opening closing escape : Char) (seps : Option CStr)

/-- The loop of `te_strpbrk_balanced`; the level is an `unsigned int`. A closing bracket at level
zero is logged, and the loop goes on. -/
def forwardLoop : Nat → CStr → CStr → Search
  | level, passed, [] =>
    if level ≠ 0 then .TE_EILSEQ
    else if seps = none then .found passed []
    else .TE_ENOENT
  | level, passed, c :: str =>
    if escape ≠ '\x00' ∧ c = escape then match str with
      | [] => .TE_EILSEQ
      | d :: str =>
        if level = 0 ∧ seps = none then .found passed (c :: d :: str)
        else forwardLoop level (passed ++ [c,d]) str
    else if c = opening then forwardLoop (raise UINT32_MOD level) (passed ++ [c]) str
    else if c = closing then forwardLoop (lower UINT32_MOD level) (passed ++ [c]) str
    else if level = 0 ∧ ∀ set ∈ seps, c ∈ set then .found passed (c :: str)
    else forwardLoop level (passed ++ [c]) str
def te_strpbrk_balanced (str : CStr) : Search := forwardLoop opening closing escape seps 0 [] str
/-- `is_escaped`, by the characters before one, the nearest first. -/
def isEscaped : Bool → CStr → Bool
  | is_escaped, [] => is_escaped
  | is_escaped, c :: before => if c = escape then isEscaped (!is_escaped) before else is_escaped
/-- The loop of `te_strpbrk_rev_balanced` over the characters before `ptr`, the nearest first. -/
def reverseLoop : Nat → CStr → CStr → Search
  | level, _, [] => if level ≠ 0 then .TE_EILSEQ else .TE_ENOENT
  | level, behind, c :: before =>
    if escape ≠ '\x00' ∧ isEscaped escape false before then match before with
      | [] => .TE_ENOENT -- the first character is not escaped
      | d :: before =>
        if level = 0 ∧ seps = none then .found before.reverse (d :: c :: behind)
        else reverseLoop level (d :: c :: behind) before
    else if c = escape then .TE_EILSEQ
    else if c = closing then reverseLoop (raise UINT32_MOD level) (c :: behind) before
    else if c = opening then reverseLoop (lower UINT32_MOD level) (c :: behind) before
    else if level = 0 ∧ ∀ set ∈ seps, c ∈ set then .found before.reverse (c :: behind)
    else reverseLoop level (c :: behind) before
def te_strpbrk_rev_balanced (str : CStr) : Search := reverseLoop opening closing escape seps 0 [] str.reverse
end

/-- A bare character, or an escape character with the one it escapes, or with none. -/
inductive Piece
  | bare (c : Char)
  | escaped (escape c : Char)
  | dangling (escape : Char)
  deriving DecidableEq, Repr
def Piece.text : Piece → CStr
  | .bare c => [c]
  | .escaped escape c => [escape,c]
  | .dangling escape => [escape]
def texts (ps : List Piece) : CStr := ps.flatMap Piece.text
/-- How a text reads with an escape character. -/
def pieces (escape : Char) : CStr → List Piece
  | [] => []
  | c :: str =>
    if escape ≠ '\x00' ∧ c = escape then match str with
      | [] => [.dangling c]
      | d :: str => .escaped c d :: pieces escape str
    else .bare c :: pieces escape str
/-- Without separators every character outside brackets is one, escaped ones included. -/
def pieceMark (up down : Char) (seps : Option CStr) : Piece → Mark
  | .bare c => if c = up then .up else if c = down then .down else if ∀ set ∈ seps, c ∈ set then .stop else .plain
  | .escaped _ _ => if seps = none then .stop else .plain
  | .dangling _ => .broken

section
variable (opening closing escape : Char) (seps : Option CStr) (str : CStr)

/-- The position of a piece, met from the beginning. -/
def foundForward (passed : List Piece) (p : Piece) (rest : List Piece) : Search := .found (texts passed) (texts (p :: rest))
/-- The position of a piece, met from the end. -/
def foundBackward (passed : List Piece) (p : Piece) (rest : List Piece) : Search := .found (texts rest.reverse) (texts (p :: passed.reverse))
/-- Without separators, the end of the string is outside all brackets. -/
def absentForward : Search := if seps = none then .found str [] else .TE_ENOENT
/-- The leftmost separator is found, or its absence, or the error, and the level is the depth. -/
def SearchesForward : Prop :=
  Searched (pieceMark opening closing seps) foundForward (absentForward seps str) .TE_EILSEQ (pieces escape str)
    (te_strpbrk_balanced opening closing escape seps str) ∧
  Counts (pieceMark opening closing seps) UINT32_MOD (pieces escape str)
/-- The rightmost separator is found, or its absence, or the error, and the level is the depth. -/
def SearchesBackward : Prop :=
  Searched (pieceMark closing opening seps) foundBackward .TE_ENOENT .TE_EILSEQ (pieces escape str).reverse
    (te_strpbrk_rev_balanced opening closing escape seps str) ∧
  Counts (pieceMark closing opening seps) UINT32_MOD (pieces escape str).reverse
end

section
variable {opening closing escape : Char} {seps : Option CStr} {str s t : CStr} {level : Nat} {passed : List Piece} {c : Char}

@[simp] theorem texts_nil : texts [] = [] := rfl
@[simp] theorem texts_cons (p : Piece) (ps : List Piece) : texts (p :: ps) = p.text ++ texts ps := rfl
@[simp] theorem texts_append (ps qs : List Piece) : texts (ps ++ qs) = texts ps ++ texts qs := flatMap_append
theorem texts_pieces (escape : Char) (str : CStr) : texts (pieces escape str) = str := by
  fun_induction pieces escape str with
  | case1 => rfl
  | case2 => rfl
  | case3 c _ d str ih => simp [Piece.text,ih]
  | case4 c str _ ih => simp [Piece.text,ih]

section
variable (up down : Char)
theorem mark_up (c : Char) (seps : Option CStr) : pieceMark c down seps (.bare c) = .up := if_pos rfl
theorem mark_down (c : Char) (seps : Option CStr) (other : c ≠ up) : pieceMark up c seps (.bare c) = .down := by
  rw [pieceMark,if_neg other,if_pos rfl]
theorem mark_stop {up down : Char} (notUp : c ≠ up) (notDown : c ≠ down) (separates : ∀ set ∈ seps, c ∈ set) :
    pieceMark up down seps (.bare c) = .stop := by
  rw [pieceMark,if_neg notUp,if_neg notDown,if_pos separates]
theorem mark_plain {up down : Char} (notUp : c ≠ up) (notDown : c ≠ down) (plain : ¬ ∀ set ∈ seps, c ∈ set) :
    pieceMark up down seps (.bare c) = .plain := by
  rw [pieceMark,if_neg notUp,if_neg notDown,if_neg plain]
theorem mark_every (d : Char) : pieceMark up down none (.escaped c d) = .stop := rfl
theorem mark_escaped {seps : CStr} (d : Char) : pieceMark up down (some seps) (.escaped c d) = .plain := rfl
end
section
theorem forwardLoop_dangling (escapes : escape ≠ '\x00' ∧ c = escape) (passed : CStr) :
    forwardLoop opening closing escape seps level passed [c] = .TE_EILSEQ := by
  rw [forwardLoop,if_pos escapes]
theorem forwardLoop_escaped (escapes : escape ≠ '\x00' ∧ c = escape) (passed : CStr) (d : Char) :
    forwardLoop opening closing escape seps level passed (c :: d :: str) =
      if level = 0 ∧ seps = none then .found passed (c :: d :: str) else forwardLoop opening closing escape seps level (passed ++ [c,d]) str := by
  rw [forwardLoop,if_pos escapes]
theorem forwardLoop_bare (bare : ¬ (escape ≠ '\x00' ∧ c = escape)) (passed : CStr) :
    forwardLoop opening closing escape seps level passed (c :: str) =
      if c = opening then forwardLoop opening closing escape seps (raise UINT32_MOD level) (passed ++ [c]) str
      else if c = closing then forwardLoop opening closing escape seps (lower UINT32_MOD level) (passed ++ [c]) str
      else if level = 0 ∧ ∀ set ∈ seps, c ∈ set then .found passed (c :: str)
      else forwardLoop opening closing escape seps level (passed ++ [c]) str := by
  cases str with
  | nil => rw [forwardLoop.eq_def _ _ _ _ level passed [c]]; exact if_neg bare
  | cons d str => rw [forwardLoop.eq_def _ _ _ _ level passed (c :: d :: str)]; exact if_neg bare
/-- The forward loop scans the pieces. -/
theorem forwardLoop_scans {whole : CStr} (parts : whole = texts passed ++ str) :
    forwardLoop opening closing escape seps level (texts passed) str =
      bracketScan (pieceMark opening closing seps) UINT32_MOD foundForward (absentForward seps whole) .TE_EILSEQ level passed (pieces escape str) := by
  fun_induction pieces escape str generalizing level passed with
  | case1 => rw [forwardLoop,bracketScan,absentForward,parts,append_nil]
  | case2 c escapes => rw [forwardLoop_dangling escapes,scan_broken rfl]
  | case3 c escapes d str ih =>
    have onward := @ih level (passed ++ [.escaped c d]) (by rw [parts]; simp [Piece.text])
    rw [texts_append] at onward
    rw [forwardLoop_escaped escapes]
    cases seps with
    | none =>
      by_cases zero : level = 0
      · subst zero
        rw [if_pos ⟨rfl,rfl⟩,scan_found (mark_every opening closing d),foundForward,texts_cons,texts_pieces]
        rfl
      · rw [if_neg fun both => zero both.1,scan_inside (mark_every opening closing d) zero]
        exact onward
    | some seps =>
      rw [if_neg (by simp),scan_plain (mark_escaped opening closing d)]
      exact onward
  | case4 c str bare ih =>
    have onward (level : Nat) := @ih level (passed ++ [.bare c]) (by rw [parts]; simp [Piece.text])
    simp only [texts_append] at onward
    rw [forwardLoop_bare bare]
    by_cases up : c = opening
    · subst up
      rw [if_pos rfl,scan_up (mark_up closing c seps)]
      exact onward (raise UINT32_MOD level)
    · rw [if_neg up]
      by_cases down : c = closing
      · subst down
        rw [if_pos rfl,scan_down (mark_down opening c seps up)]
        exact onward (lower UINT32_MOD level)
      · rw [if_neg down]
        by_cases separates : ∀ set ∈ seps, c ∈ set
        · by_cases zero : level = 0
          · subst zero
            rw [if_pos ⟨rfl,separates⟩,scan_found (mark_stop up down separates),foundForward,texts_cons,texts_pieces]
            rfl
          · rw [if_neg fun both => zero both.1,scan_inside (mark_stop up down separates) zero]
            exact onward level
        · rw [if_neg fun both => separates both.2,scan_plain (mark_plain up down separates)]
          exact onward level
end

section
/-- What follows a part reads the same as if it stood alone. -/
def Closed (escape : Char) (s : CStr) : Prop := ∀ t, pieces escape (s ++ t) = pieces escape s ++ pieces escape t
theorem Closed.bare (closed : Closed escape s) (bare : ¬ (escape ≠ '\x00' ∧ c = escape)) : pieces escape (s ++ [c]) = pieces escape s ++ [.bare c] := by
  rw [closed [c],pieces.eq_def escape [c]]
  simp only [if_neg bare,pieces]
theorem Closed.escaped (closed : Closed escape s) (escapes : escape ≠ '\x00') (c : Char) :
    pieces escape (s ++ [escape,c]) = pieces escape s ++ [.escaped escape c] := by
  rw [closed [escape,c],pieces,if_pos ⟨escapes,rfl⟩,pieces]
theorem isEscaped_flips (escape : Char) (before : CStr) : isEscaped escape true before = !isEscaped escape false before := by
  suffices flips : ∀ flag, isEscaped escape (!flag) before = !isEscaped escape flag before from flips false
  induction before with
  | nil => intro flag; rfl
  | cons c before ih => simp [ih,isEscaped]
/-- The run of escape characters before a character tells how the text before it reads. -/
theorem escaped_cases (escapes : escape ≠ '\x00') (s : CStr) :
    isEscaped escape false s.reverse = false ∧ Closed escape s ∨
    isEscaped escape false s.reverse = true ∧ ∃ s', s = s' ++ [escape] ∧ Closed escape s' := by
  induction s using List.reverseRecOn with
  | nil => exact .inl ⟨rfl,fun t => rfl⟩
  | append_singleton s c ih =>
    rw [reverse_append,reverse_singleton,singleton_append,isEscaped,Bool.not_false,isEscaped_flips]
    rcases ih with ⟨plain,closed⟩ | ⟨escaped,s',rfl,closed⟩
    · by_cases same : c = escape
      · grind
      · refine .inl ⟨if_neg same,fun t => ?_⟩
        have bare : ¬ (escape ≠ '\x00' ∧ c = escape) := fun both => same both.2
        rw [closed.bare bare,append_assoc,closed,append_assoc,singleton_append,pieces.eq_def escape (c :: t)]
        simp only [if_neg bare,singleton_append]
    · refine .inl ⟨by rw [escaped]; split <;> rfl,fun t => ?_⟩
      rw [append_assoc s',singleton_append,closed.escaped escapes,append_assoc,closed,append_assoc,cons_append,
        singleton_append,pieces,if_pos ⟨escapes,rfl⟩,singleton_append]
theorem closed_without (s : CStr) : Closed '\x00' s := by
  intro t
  induction s with
  | nil => rfl
  | cons c s ih =>
    rw [cons_append,pieces.eq_def _ (c :: (s ++ t)),pieces.eq_def _ (c :: s)]
    simp only [if_neg (fun both : ('\x00' : Char) ≠ '\x00' ∧ c = '\x00' => both.1 rfl),cons_append,ih]
/-- The last character is escaped, or it is read alone. -/
theorem last_piece (escape : Char) (s : CStr) :
    ¬ (escape ≠ '\x00' ∧ isEscaped escape false s.reverse = true) ∧ Closed escape s ∨
    (escape ≠ '\x00' ∧ isEscaped escape false s.reverse = true) ∧ ∃ s', s = s' ++ [escape] ∧ Closed escape s' := by
  by_cases escapes : escape = '\x00'
  · subst escapes
    exact .inl ⟨fun both => both.1 rfl,closed_without s⟩
  · simp [escapes,escaped_cases]
theorem reverseLoop_bare {before : CStr} (plain : ¬ (escape ≠ '\x00' ∧ isEscaped escape false before = true)) (behind : CStr) :
    reverseLoop opening closing escape seps level behind (c :: before) =
      if c = escape then .TE_EILSEQ
      else if c = closing then reverseLoop opening closing escape seps (raise UINT32_MOD level) (c :: behind) before
      else if c = opening then reverseLoop opening closing escape seps (lower UINT32_MOD level) (c :: behind) before
      else if level = 0 ∧ ∀ set ∈ seps, c ∈ set then .found before.reverse (c :: behind)
      else reverseLoop opening closing escape seps level (c :: behind) before := by
  cases before with
  | nil => rw [reverseLoop.eq_def _ _ _ _ level behind [c]]; exact if_neg plain
  | cons d before => rw [reverseLoop.eq_def _ _ _ _ level behind (c :: d :: before)]; exact if_neg plain
theorem reverseLoop_escaped {before : CStr} {d : Char} (escaped : escape ≠ '\x00' ∧ isEscaped escape false (d :: before) = true) (behind : CStr) :
    reverseLoop opening closing escape seps level behind (c :: d :: before) =
      if level = 0 ∧ seps = none then .found before.reverse (d :: c :: behind)
      else reverseLoop opening closing escape seps level (d :: c :: behind) before := by
  rw [reverseLoop,if_pos escaped]
theorem texts_snoc (ps : List Piece) (p : Piece) : texts (ps ++ [p]).reverse = p.text ++ texts ps.reverse := by simp
/-- The reverse loop scans the pieces from the last one. -/
theorem reverseLoop_scans (ended : '\x00' ∉ s) :
    reverseLoop opening closing escape seps level (texts passed.reverse) s.reverse =
      bracketScan (pieceMark closing opening seps) UINT32_MOD foundBackward .TE_ENOENT .TE_EILSEQ level passed (pieces escape s).reverse := by
  -- the last piece has one character or two
  induction size : s.length using Nat.strong_induction_on generalizing s level passed with
  | _ n ih =>
    rcases eq_nil_or_concat s with rfl | ⟨s,c,rfl⟩
    · rw [List.reverse_nil,reverseLoop,pieces,List.reverse_nil,bracketScan]
    rw [concat_eq_append] at *
    have onward (front : CStr) (p : Piece) (level : Nat) (parts : s ++ [c] = front ++ p.text) (shorter : front.length < n) :
        reverseLoop opening closing escape seps level (p.text ++ texts passed.reverse) front.reverse =
          bracketScan (pieceMark closing opening seps) UINT32_MOD foundBackward .TE_ENOENT .TE_EILSEQ level (passed ++ [p]) (pieces escape front).reverse := by
      rw [← texts_snoc]
      exact ih front.length shorter (fun member => ended (by rw [parts]; exact mem_append_left _ member)) rfl
    have found (front : CStr) (p : Piece) : foundBackward passed p (pieces escape front).reverse = .found front (p.text ++ texts passed.reverse) := by
      rw [foundBackward,reverse_reverse,texts_pieces,texts_cons]
    rw [length_append,length_singleton] at size
    rcases last_piece escape s with ⟨plain,closed⟩ | ⟨escaped,front,rfl,closed⟩
    · rw [reverse_append,reverse_singleton,singleton_append,reverseLoop_bare plain]
      by_cases same : c = escape
      · have escapes : escape ≠ '\x00' := fun zero => ended (by simp [same,zero])
        rw [if_pos same,closed [c],pieces,if_pos ⟨escapes,same⟩,reverse_append,reverse_singleton,singleton_append,scan_broken rfl]
      · rw [if_neg same,closed.bare fun both => same both.2,reverse_append,reverse_singleton,singleton_append]
        have onward (level : Nat) := onward s (.bare c) level rfl (by omega)
        by_cases up : c = closing
        · subst up
          rw [if_pos rfl,scan_up (mark_up opening c seps)]
          exact onward (raise UINT32_MOD level)
        · rw [if_neg up]
          by_cases down : c = opening
          · subst down
            rw [if_pos rfl,scan_down (mark_down closing c seps up)]
            exact onward (lower UINT32_MOD level)
          · rw [if_neg down]
            by_cases separates : ∀ set ∈ seps, c ∈ set
            · by_cases zero : level = 0
              · subst zero
                rw [if_pos ⟨rfl,separates⟩,scan_found (mark_stop up down separates),found,reverse_reverse]
                rfl
              · rw [if_neg fun both => zero both.1,scan_inside (mark_stop up down separates) zero]
                exact onward level
            · rw [if_neg fun both => separates both.2,scan_plain (mark_plain up down separates)]
              exact onward level
    · have onward := onward front (.escaped escape c) level (by simp [Piece.text]) (by rw [length_append,length_singleton] at size; omega)
      rw [reverse_append,reverse_singleton,singleton_append] at escaped
      rw [append_assoc,singleton_append,closed.escaped escaped.1,reverse_append,reverse_append,reverse_singleton,
        singleton_append]
      rw [show [escape,c].reverse ++ front.reverse = c :: escape :: front.reverse from rfl,reverseLoop_escaped escaped]
      cases seps with
      | none =>
        by_cases zero : level = 0
        · subst zero
          rw [if_pos ⟨rfl,rfl⟩,scan_found (mark_every closing opening c),found,reverse_reverse]
          rfl
        · rw [if_neg fun both => zero both.1,scan_inside (mark_every closing opening c) zero]
          exact onward
      | some seps =>
        rw [if_neg (by simp),scan_plain (mark_escaped closing opening c)]
        exact onward
end
end

section
variable (opening closing escape : Char) (seps : Option CStr) (str : CStr)

/-- Both searches are right, with a counter that is the depth, if and only if in the part that is
scanned no bracket closes (for the search from the end: opens) at depth zero, and no depth is 2^32. -/
theorem searches_iff (ended : '\x00' ∉ str) :
    (SearchesForward opening closing escape seps str ↔ Kept (pieceMark opening closing seps) UINT32_MOD (pieces escape str)) ∧
    (SearchesBackward opening closing escape seps str ↔ Kept (pieceMark closing opening seps) UINT32_MOD (pieces escape str).reverse) := by
  have positive : 0 < UINT32_MOD := by decide
  constructor
  · rw [SearchesForward,te_strpbrk_balanced]
    have scans := @forwardLoop_scans opening closing escape seps str 0 [] str rfl
    rw [texts_nil] at scans
    rw [scans]
    exact scan_searched positive
  · grind [reverseLoop_scans,List.reverse_nil,texts_nil,scan_searched,SearchesBackward,te_strpbrk_rev_balanced]
/-- The example of the header, with an escaped bracket and an escaped separator. -/
theorem searches_iff_example :
    (SearchesForward '(' ')' '\\' (some [',']) "a(b,\\),c,d)\\,e,f".toList ↔
      Kept (pieceMark '(' ')' (some [','])) UINT32_MOD (pieces '\\' "a(b,\\),c,d)\\,e,f".toList)) ∧
    (SearchesBackward '(' ')' '\\' (some [',']) "a(b,\\),c,d)\\,e,f".toList ↔
      Kept (pieceMark ')' '(' (some [','])) UINT32_MOD (pieces '\\' "a(b,\\),c,d)\\,e,f".toList).reverse) :=
  searches_iff '(' ')' '\\' (some [',']) "a(b,\\),c,d)\\,e,f".toList (by decide)
/-- A bracket that closes before one opens is no error in either direction. -/
theorem closing_first_unnoticed : ¬ SearchesForward '(' ')' '\x00' (some [',']) [')','('] ∧ ¬ SearchesBackward '(' ')' '\x00' (some [',']) [')','('] := by
  constructor
  · rintro ⟨searched,-⟩
    have result := searched.invalid [] (.bare ')') [.bare '('] rfl
      ⟨ nil_prefix,by simp,fun front p start => by simp at start⟩ (fun front start => by rw [List.prefix_nil.mp start]; simp) (.inr ⟨rfl,depth_nil⟩)
    exact absurd result (by decide)
  · rintro ⟨searched,-⟩
    have result := searched.invalid [] (.bare '(') [.bare ')'] rfl
      ⟨ nil_prefix,by simp,fun front p start => by simp at start⟩ (fun front start => by rw [List.prefix_nil.mp start]; simp) (.inr ⟨rfl,depth_nil⟩)
    exact absurd result (by decide)
end
end TestEnvironment.Tools.Strpbrk
