import TestEnvironment.Tools.TeStringSpace

/-!
Lists of key-value pairs as text (`te_kvpair_to_str`, `te_kvpair_from_str` and
`te_kvpair_add` of `te_kvpair.c`). A list is given from its head on.
-/
namespace TestEnvironment.Tools
open Lib

/-- `te_kvpair`: key and value. -/
abbrev TeKvpair := CStr × CStr
inductive KvpairStatus | ok | TE_EEXIST | TE_EINVAL
  deriving DecidableEq, Repr

section
variable (page : Page)

def TE_KVPAIR_STR_DELIMITER : Char := ':'
/-- The loop of `te_kvpair_to_str_gen` over the pairs in reverse order. -/
def toStrLoop (delim : CStr) : Bool → List TeKvpair → TeString → Except Stop TeString
  | _, [], str => .ok str
  | first, p :: pairs, str => do
    let str ← te_string_append page str ((if first then [] else delim) ++ p.1 ++ '=' :: p.2)
    toStrLoop delim false pairs str
def te_kvpair_to_str_gen (head : List TeKvpair) (delim : CStr) (str : TeString) : Except Stop TeString :=
  toStrLoop page delim true head.reverse str
def te_kvpair_to_str (head : List TeKvpair) (str : TeString) : Except Stop TeString :=
  te_kvpair_to_str_gen page head [TE_KVPAIR_STR_DELIMITER] str

/-- `te_kvpairs_get`: the value of the first pair with the key. -/
def te_kvpairs_get (head : List TeKvpair) (key : CStr) : Option CStr := (head.find? fun p => key = p.1).map (·.2)
/-- `te_kvpair_push` with the format `%s`. -/
def te_kvpair_push (head : List TeKvpair) (key value : CStr) : Except Stop (List TeKvpair) := do
  let value_str ← te_string_append page (TE_STRING_INIT_RESERVE 0) value
  let value ← value_str.value
  .ok ((key,value) :: head)
def te_kvpair_add (head : List TeKvpair) (key value : CStr) : Except Stop (KvpairStatus × List TeKvpair) :=
  if (te_kvpairs_get head key).isSome then .ok (.TE_EEXIST,head)
  else do
    let head ← te_kvpair_push page head key value
    .ok (.ok,head)
/-- `strtok_r(token, "=", &val)` for a token that does not start with the delimiter: the key and `val`. -/
def tokenKey (token : CStr) : CStr := token.takeWhile (· ≠ '=')
def tokenValue (token : CStr) : CStr := (token.dropWhile (· ≠ '=')).drop 1
/-- The loop of `te_kvpair_from_str` over the tokens. On an error the list is emptied. -/
def fromTokens : List CStr → List TeKvpair → Except Stop (KvpairStatus × List TeKvpair)
  | [], head => .ok (.ok,head)
  | token :: tokens, head =>
    if token.head? = some '=' then .ok (.TE_EINVAL,[])
    else do
      let (rc,head) ← te_kvpair_add page head (tokenKey token) (tokenValue token)
      if rc ≠ .ok then .ok (rc,[]) else fromTokens tokens head
def te_kvpair_from_str (str : CStr) (head : List TeKvpair) : Except Stop (KvpairStatus × List TeKvpair) :=
  fromTokens page (strtok TE_KVPAIR_STR_DELIMITER str) head
end

section
variable {page : Page} {str : TeString} {content : CStr} {pairs : List TeKvpair}

def pairText (p : TeKvpair) : CStr := p.1 ++ '=' :: p.2
/-- The text of pairs in the order of the list reversed, with a delimiter before each but the first. -/
def pairsText (delim : CStr) : List TeKvpair → CStr
  | [] => []
  | p :: pairs => pairText p ++ pairs.flatMap fun p => delim ++ pairText p
/-- Every pair is short enough to be printed. -/
def Printed (delim : CStr) (pairs : List TeKvpair) : Prop := ∀ p ∈ pairs, (delim ++ pairText p).length ≤ INT_MAX

/-- What is written for pairs, the first of all or behind others. -/
def writtenText (delim : CStr) (first : Bool) (pairs : List TeKvpair) : CStr :=
  if first then pairsText delim pairs else pairs.flatMap fun p => delim ++ pairText p

theorem writtenText_cons (delim : CStr) (first : Bool) (p : TeKvpair) (pairs : List TeKvpair) :
    writtenText delim first (p :: pairs) = (if first then [] else delim) ++ p.1 ++ '=' :: p.2 ++ writtenText delim false pairs := by
  cases first <;> simp [writtenText,pairsText,pairText]
theorem toStrLoop_succeeds (delim : CStr) (first : Bool) (pairs : List TeKvpair) (holds : HoldsText str content) (fresh : Fresh str) :
    Succeeds (Ample (content.length+(writtenText delim first pairs).length+1) ∧ Printed delim pairs)
      (toStrLoop page delim first pairs str) fun s => HoldsText s (content ++ writtenText delim first pairs) := by
  induction pairs generalizing str content first with
  | nil => cases first <;> simpa [toStrLoop,Succeeds,writtenText,pairsText] using holds
  | cons p pairs ih =>
    rw [toStrLoop,writtenText_cons]
    generalize text : (if first then [] else delim) ++ p.1 ++ '=' :: p.2 = written
    have short : written.length ≤ (delim ++ pairText p).length := by
      rw [← text]
      cases first <;> simp [pairText]
    have some' : content ++ written ≠ [] := by simp [← text]
    have appended := @append_succeeds page _ _ written holds.printable fresh
    rw [length_append]
    refine (appended.weaken fun ⟨ample,printed⟩ => ⟨ample.mono (by omega),le_trans short (printed p mem_cons_self)⟩).bind
      fun s holds' => ?_
    have rest := ih false holds' (holds'.fresh some')
    rw [append_assoc,length_append] at rest
    exact rest.weaken fun ⟨ample,printed⟩ => ⟨ample.mono (by omega),fun q member => printed q (mem_cons_of_mem _ member)⟩
end

section
variable {page : Page} {p : TeKvpair} {pairs head head' : List TeKvpair} {text : CStr} {tokens : List CStr}

/-- Keys and values that the text keeps apart. -/
structure Separable (p : TeKvpair) : Prop where
  key : p.1 ≠ []
  equals : '=' ∉ p.1
  colons : TE_KVPAIR_STR_DELIMITER ∉ p.1 ∧ TE_KVPAIR_STR_DELIMITER ∉ p.2
  zeros : '\x00' ∉ p.1 ∧ '\x00' ∉ p.2

namespace Separable
theorem token (separable : Separable p) : TE_KVPAIR_STR_DELIMITER ∉ pairText p ∧ pairText p ≠ [] := by
  have other : TE_KVPAIR_STR_DELIMITER ≠ '=' := by decide
  exact ⟨by simp [pairText,separable.colons,other],by simp [pairText]⟩
theorem start (separable : Separable p) : (pairText p).head? ≠ some '=' := by
  obtain ⟨c,key,same⟩ := exists_cons_of_ne_nil separable.key
  have absent := separable.equals
  rw [same] at absent
  simp only [pairText,same,cons_append,head?_cons,ne_eq,some_inj]
  rintro rfl
  exact absent mem_cons_self
theorem parts (separable : Separable p) : tokenKey (pairText p) = p.1 ∧ tokenValue (pairText p) = p.2 := by
  have all : ∀ c ∈ p.1, decide (c ≠ '=') = true := fun c member => by
    simpa using fun same : c = '=' => separable.equals (same ▸ member)
  constructor
  · simp_all [tokenKey,pairText]
  · simp_all [tokenValue,pairText]
end Separable

theorem strtok_pairsText (separable : ∀ p ∈ pairs, Separable p) :
    strtok TE_KVPAIR_STR_DELIMITER (pairsText [TE_KVPAIR_STR_DELIMITER] pairs) = pairs.map pairText := by
  cases pairs with
  | nil => rfl
  | cons p pairs =>
    obtain ⟨first,rest⟩ := forall_mem_cons.mp separable
    have tokens : ∀ t ∈ pairs.map pairText, TE_KVPAIR_STR_DELIMITER ∉ t ∧ t ≠ [] := by
      intro t member
      obtain ⟨q,inside,rfl⟩ := mem_map.mp member
      exact (rest q inside).token
    have split := strtok_delimited tokens (pairText p)
    rw [List.flatMap_map,strtok_token first.token.1 first.token.2] at split
    exact split
theorem kvpairs_get_none {key : CStr} : te_kvpairs_get head key = none ↔ key ∉ head.map (·.1) := by
  rw [te_kvpairs_get,Option.map_eq_none_iff,find?_eq_none]
  simp only [decide_eq_true_eq,mem_map,not_exists,not_and]
  exact ⟨fun absent q member same => absent q member same.symm,fun absent q member same => absent q member same.symm⟩
/-- Memory for each of the values, one at a time. -/
def ValuesFit (pairs : List TeKvpair) : Prop := ∀ p ∈ pairs, Ample (p.2.length+1) ∧ p.2.length ≤ INT_MAX

/-- The pairs of the text are put in front of the list one by one. -/
theorem fromTokens_pairs (separable : ∀ p ∈ pairs, Separable p) (distinct : ((pairs.reverse ++ head).map (·.1)).Nodup) :
    Succeeds (ValuesFit pairs) (fromTokens page (pairs.map pairText) head) fun r => r = (.ok,pairs.reverse ++ head) := by
  induction pairs generalizing head with
  | nil => rfl
  | cons p pairs ih =>
    obtain ⟨first,rest⟩ := forall_mem_cons.mp separable
    rw [List.reverse_cons,append_assoc] at distinct
    have absent : p.1 ∉ head.map (·.1) := by grind
    rw [map_cons,fromTokens,if_neg first.start,first.parts.1,first.parts.2,te_kvpair_add,kvpairs_get_none.mpr absent]
    show Succeeds _ ((te_kvpair_push page head p.1 p.2 >>= fun head => .ok (KvpairStatus.ok,head)) >>= _) _
    rw [te_kvpair_push,bind_assoc,bind_assoc]
    refine ((append_value first.zeros.2).weaken fun fit => fit p mem_cons_self).bind fun s value => ?_
    rw [value]
    have later := @ih (p :: head) rest distinct
    rw [List.reverse_cons,append_assoc]
    exact later.weaken fun fit q member => fit q (mem_cons_of_mem _ member)
theorem kvpair_push_head {key value : CStr} (result : te_kvpair_push page head key value = .ok head') : ∃ v, head' = (key,v) :: head := by
  rw [te_kvpair_push] at result
  cases printed : te_string_append page (TE_STRING_INIT_RESERVE 0) value with
  | error stop => rw [printed] at result; cases result
  | ok s =>
    rw [printed] at result
    change (s.value >>= fun value => .ok ((key,value) :: head)) = _ at result
    cases seen : s.value with
    | error stop => rw [seen] at result; cases result
    | ok v =>
      rw [seen] at result
      exact ⟨v,(ok.inj result).symm⟩
theorem tokenKey_nonempty {token : CStr} (some' : token ≠ []) (start : token.head? ≠ some '=') : tokenKey token ≠ [] := by
  obtain ⟨c,rest,rfl⟩ := exists_cons_of_ne_nil some'
  have other : c ≠ '=' := by simpa using start
  simp [tokenKey,other]
/-- Tokens that are accepted have distinct keys, which are not empty and were not in the list. -/
theorem fromTokens_accepted (nonempty : ∀ token ∈ tokens, token ≠ []) (accepted : fromTokens page tokens head = .ok (.ok,head')) :
    (tokens.map tokenKey).Nodup ∧ (∀ token ∈ tokens, tokenKey token ∉ head.map (·.1)) ∧ ∀ token ∈ tokens, tokenKey token ≠ [] := by
  induction tokens generalizing head with
  | nil => simp
  | cons token tokens ih =>
    obtain ⟨some',others⟩ := forall_mem_cons.mp nonempty
    rw [fromTokens] at accepted
    by_cases start : token.head? = some '='
    · rw [if_pos start] at accepted
      cases accepted
    rw [if_neg start,te_kvpair_add] at accepted
    by_cases repeats : (te_kvpairs_get head (tokenKey token)).isSome
    · rw [if_pos repeats] at accepted
      cases accepted
    rw [if_neg repeats] at accepted
    have absent : tokenKey token ∉ head.map (·.1) := kvpairs_get_none.mp (by simpa using repeats)
    cases pushed : te_kvpair_push page head (tokenKey token) (tokenValue token) with
    | error stop => rw [pushed] at accepted; cases accepted
    | ok head1 =>
      rw [pushed] at accepted
      obtain ⟨v,rfl⟩ := kvpair_push_head pushed
      obtain ⟨distinct,fresh,keys⟩ := ih others accepted
      have apart : ∀ t ∈ tokens, tokenKey t ≠ tokenKey token ∧ tokenKey t ∉ head.map (·.1) := fun t member => by
        simpa using fresh t member
      refine ⟨?_,?_,forall_mem_cons.mpr ⟨tokenKey_nonempty some' start,keys⟩⟩
      · grind
      · exact forall_mem_cons.mpr ⟨absent,fun t member => (apart t member).2⟩

/-- Pairs with distinct keys are read back from their text in the same order, and no text is accepted
    in which a key repeats or is empty. -/
theorem kvpair_round_trip :
    (∀ head str content, (∀ p ∈ head, Separable p) → (head.map (·.1)).Nodup → HoldsText str content → Fresh str →
      ∃ text, Succeeds (Ample (content.length+text.length+1) ∧ Printed [TE_KVPAIR_STR_DELIMITER] head)
          (te_kvpair_to_str page head str) (fun s => HoldsText s (content ++ text)) ∧
        Succeeds (ValuesFit head) (te_kvpair_from_str page text []) fun r => r = (.ok,head)) ∧
    (∀ text head head', te_kvpair_from_str page text head = .ok (.ok,head') →
      ((strtok TE_KVPAIR_STR_DELIMITER text).map tokenKey).Nodup ∧ ∀ token ∈ strtok TE_KVPAIR_STR_DELIMITER text, tokenKey token ≠ []) := by
  constructor
  · intro head str content separable distinct holds fresh
    have reversed : ∀ p ∈ head.reverse, Separable p := fun p member => separable p (mem_reverse.mp member)
    have members (Q : TeKvpair → Prop) (all : ∀ p ∈ head, Q p) : ∀ p ∈ head.reverse, Q p := fun p member => all p (mem_reverse.mp member)
    refine ⟨pairsText [TE_KVPAIR_STR_DELIMITER] head.reverse,?_,?_⟩
    · have written := @toStrLoop_succeeds page _ _ [TE_KVPAIR_STR_DELIMITER] true head.reverse holds fresh
      exact written.weaken fun ⟨ample,printed⟩ => ⟨ample,members _ printed⟩
    · rw [te_kvpair_from_str,strtok_pairsText reversed]
      have read := @fromTokens_pairs page _ [] reversed (by simpa using distinct)
      rw [reverse_reverse,append_nil] at read
      exact read.weaken fun fit => members _ fit
  · intro text head head' accepted
    obtain ⟨distinct,_,keys⟩ := fromTokens_accepted (fun token member => (strtok_mem member).1) accepted
    exact ⟨distinct,keys⟩
theorem kvpair_round_trip_two :
    (∃ text, Succeeds (Ample (0+text.length+1) ∧ Printed [TE_KVPAIR_STR_DELIMITER] [(['b'],['=','x']),(['a'],[])])
        (te_kvpair_to_str ⟨4096,by decide,by decide⟩ [(['b'],['=','x']),(['a'],[])] (TE_STRING_INIT_RESERVE 0)) (fun s => HoldsText s ([] ++ text)) ∧
      Succeeds (ValuesFit [(['b'],['=','x']),(['a'],[])]) (te_kvpair_from_str ⟨4096,by decide,by decide⟩ text []) fun r =>
        r = (.ok,[(['b'],['=','x']),(['a'],[])])) ∧
    ([['a'],['b']].Nodup ∧ ∀ token ∈ [['a'],['b']], tokenKey token ≠ []) :=
  ⟨kvpair_round_trip.1 [(['b'],['=','x']),(['a'],[])] (TE_STRING_INIT_RESERVE 0) []
      (forall_mem_cons.mpr ⟨⟨by decide,by decide,by decide,by decide⟩,
        forall_mem_cons.mpr ⟨⟨by decide,by decide,by decide,by decide⟩,by simp⟩⟩) (by decide) (.null rfl rfl rfl) (fun _ => rfl),
    (@kvpair_round_trip ⟨4096,by decide,by decide⟩).2 "a:b".toList [] [(['b'],[]),(['a'],[])] (by decide)⟩
end
end TestEnvironment.Tools
