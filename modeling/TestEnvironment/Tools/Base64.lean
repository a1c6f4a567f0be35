import TestEnvironment.Tools.TeStringRuns
import TestEnvironment.Tools.TeStringSpace

/-!
The base 64 functions of `te_string.c` against each other: what is encoded is decoded again
from its text with any white space in it, and how much an accepted text decodes to.
-/
namespace TestEnvironment.Tools
open Lib

section
variable {url_safe : Bool} {bytes : List UInt8} {src : CStr} {n : Nat}

/-- Bytes as the characters of a string. -/
def byteChars (bytes : List UInt8) : CStr := bytes.map fun byte => Char.ofNat byte.toNat
/-- The sextets of bytes, the last one filled up with zeros. -/
def byteSextets : List UInt8 → List Nat
  | a :: b :: c :: bytes => a.toNat/4 :: (a.toNat%4*16+b.toNat/16) :: (b.toNat%16*4+c.toNat/64) :: c.toNat%64 :: byteSextets bytes
  | [a,b] => [a.toNat/4,a.toNat%4*16+b.toNat/16,b.toNat%16*4]
  | [a] => [a.toNat/4,a.toNat%4*16]
  | [] => []

/-- A sextet is read back from its character in either alphabet. -/
theorem sextetOf_encode (url_safe : Bool) (small : n < 64) :
    sextetOf (encode_base64_bits n url_safe) = some n ∧ isspace (encode_base64_bits n url_safe) = false ∧
      encode_base64_bits n url_safe ≠ '=' := by
  have all : ∀ url_safe : Bool, ∀ n < 64, sextetOf (encode_base64_bits n url_safe) = some n ∧
      isspace (encode_base64_bits n url_safe) = false ∧ encode_base64_bits n url_safe ≠ '=' := by decide
  exact all url_safe n small
theorem textSextets_encoded (small : n < 64) : textSextets (encode_base64_bits n url_safe :: src) = n :: textSextets src :=
  textSextets_next (sextetOf_encode url_safe small).2.1 (sextetOf_encode url_safe small).1
theorem textSextets_padding (src : CStr) : textSextets ('=' :: src) = [] := textSextets_stop (by decide) (by decide)
theorem textSextets_text (url_safe : Bool) (bytes : List UInt8) : textSextets (base64Text url_safe bytes) = byteSextets bytes := by
  fun_induction base64Text url_safe bytes with
  | case1 a b c bytes ih =>
    have boundA := a.toNat_lt
    have boundB := b.toNat_lt
    have boundC := c.toNat_lt
    rw [textSextets_encoded (by omega),textSextets_encoded (by omega),textSextets_encoded (by omega),textSextets_encoded (by omega),ih,
      byteSextets]
  | case2 a b =>
    have boundA := a.toNat_lt
    have boundB := b.toNat_lt
    rw [textSextets_encoded (by omega),textSextets_encoded (by omega),textSextets_encoded (by omega),textSextets_padding,byteSextets]
  | case3 a =>
    have boundA := a.toNat_lt
    rw [textSextets_encoded (by omega),textSextets_encoded (by omega),textSextets_padding,byteSextets]
  | case4 => rfl
theorem sextetBytes_byteSextets (bytes : List UInt8) : sextetBytes (byteSextets bytes) = bytes.map (·.toNat) := by
  fun_induction byteSextets bytes with
  | case1 a b c bytes ih =>
    have boundB := b.toNat_lt
    have boundC := c.toNat_lt
    rw [sextetBytes,ih,map_cons,map_cons,map_cons]
    simp only [cons_append,nil_append,List.cons.injEq,and_true]
    omega
  | case2 a b =>
    have boundB := b.toNat_lt
    simp only [sextetBytes,map_cons,map_nil,List.cons.injEq,and_true]
    omega
  | case3 a =>
    simp only [sextetBytes,map_cons,map_nil,List.cons.injEq,and_true]
    omega
  | case4 => rfl
/-- White space between the characters does not matter. -/
theorem textSextets_spaced {spaced text : CStr} (inserted : spaced.filter (! isspace ·) = text) : textSextets spaced = textSextets text := by
  simp [← inserted,textSextets]
theorem decodedText_spaced {spaced : CStr} (inserted : spaced.filter (! isspace ·) = base64Text url_safe bytes) :
    decodedText spaced = byteChars bytes := by
  rw [decodedText,textSextets_spaced inserted,textSextets_text,sextetBytes_byteSextets,map_map]
  rfl
theorem sextetBytes_length (sextets : List Nat) : (sextetBytes sextets).length = 6*sextets.length/8 := by
  fun_induction sextetBytes sextets with
  | case1 a b c d sextets ih => grind
  | case2 a b c => simp
  | case3 a b => simp
  | case4 sextets long three two =>
    rcases sextets with _ | ⟨a,_ | ⟨b,_ | ⟨c,_ | ⟨d,sextets⟩⟩⟩⟩
    · rfl
    · simp
    · exact absurd rfl (two a b)
    · exact absurd rfl (three a b c)
    · exact absurd rfl (long a b c d sextets)
end

section
variable {page : Page} {url_safe : Bool} {src : CStr} {bits padding n : Nat}

/-- The characters that carry bits. -/
def significant (c : Char) : Bool := ! isspace c && c ≠ '='
/-- The status of decoding, which does not depend on the bits. -/
def decodeStatus : CStr → Nat → Nat → Base64Status
  | [], bits, _ => if bits = 6 then .TE_EILSEQ else .ok
  | c :: src, bits, padding =>
    if isspace c then decodeStatus src bits padding
    else if c = '=' then if 2 < padding+1 then .TE_EILSEQ else decodeStatus src bits (padding+1)
    else if 0 < padding then .TE_EILSEQ
    else
      match sextetOf c with
      | none => .TE_EILSEQ
      | some _ => decodeStatus src (if 8 ≤ bits+6 then bits+6-8 else bits+6) padding

theorem decodeLoop_status {latch : Nat} {str : TeString} {r : TeString × Base64Status}
    (result : decodeLoop page src latch bits padding str = .ok r) : r.2 = decodeStatus src bits padding := by
  induction src generalizing latch bits padding str with
  | nil =>
    rw [decodeLoop] at result
    rw [← ok.inj result,decodeStatus]
  | cons c src ih =>
    rw [decodeLoop] at result
    rw [decodeStatus]
    by_cases space : isspace c = true
    · rw [if_pos space] at result ⊢
      exact ih result
    rw [if_neg space] at result ⊢
    by_cases pad : c = '='
    · grind
    rw [if_neg pad] at result ⊢
    by_cases padded : 0 < padding
    · rw [if_pos padded] at result ⊢
      rw [← ok.inj result]
    rw [if_neg padded] at result ⊢
    cases found : sextetOf c with
    | none =>
      rw [found] at result
      rw [← ok.inj result]
    | some x =>
      rw [found] at result
      simp only at result ⊢
      by_cases full : 8 ≤ bits+6
      · rw [if_pos full] at result ⊢
        cases appended : te_string_append_buf page str
            (.bytes [Char.ofNat (extractBits (latch*2^6%UINT32_MOD+x) (bits+6-8) 8)]) with
        | ok s =>
          rw [appended] at result
          exact ih result
        | error stop =>
          rw [appended] at result
          cases result
      · rw [if_neg full] at result ⊢
        exact ih result
theorem decodeStatus_spaced (src : CStr) (bits padding : Nat) : decodeStatus (src.filter (! isspace ·)) bits padding = decodeStatus src bits padding := by
  induction src generalizing bits padding with
  | nil => rfl
  | cons c src ih =>
    cases space : isspace c with
    | true => simp [space,ih,decodeStatus]
    | false => simp [space,ih,decodeStatus]
theorem decodeStatus_encoded (small : n < 64) :
    decodeStatus (encode_base64_bits n url_safe :: src) bits 0 = decodeStatus src (if 8 ≤ bits+6 then bits+6-8 else bits+6) 0 := by
  simp [small,sextetOf_encode,decodeStatus]
/-- The padding of an encoded text is accepted. -/
theorem decodeStatus_text (url_safe : Bool) (bytes : List UInt8) : decodeStatus (base64Text url_safe bytes) 0 0 = .ok := by
  fun_induction base64Text url_safe bytes with
  | case1 a b c bytes ih =>
    have boundA := a.toNat_lt
    have boundB := b.toNat_lt
    have boundC := c.toNat_lt
    rw [decodeStatus_encoded (by omega),decodeStatus_encoded (by omega),decodeStatus_encoded (by omega),decodeStatus_encoded (by omega)]
    exact ih
  | case2 a b =>
    have boundA := a.toNat_lt
    have boundB := b.toNat_lt
    rw [decodeStatus_encoded (by omega),decodeStatus_encoded (by omega),decodeStatus_encoded (by omega)]
    rfl
  | case3 a =>
    have boundA := a.toNat_lt
    rw [decodeStatus_encoded (by omega),decodeStatus_encoded (by omega)]
    rfl
  | case4 => rfl
/-- In an accepted text every significant character is a sextet before the padding. -/
theorem textSextets_length (accepted : decodeStatus src bits padding = .ok) :
    (if padding = 0 then textSextets src else []).length = (src.filter significant).length := by
  induction src generalizing bits padding with
  | nil => split_ifs <;> rfl
  | cons c src ih =>
    rw [decodeStatus] at accepted
    by_cases space : isspace c = true
    · rw [if_pos space] at accepted
      rw [filter_cons_of_neg (by simp [significant,space]),textSextets_space space]
      exact ih accepted
    rw [if_neg space] at accepted
    by_cases pad : c = '='
    · rw [if_pos pad] at accepted
      split_ifs at accepted
      have later := ih accepted
      rw [if_neg (Nat.succ_ne_zero _)] at later
      rw [filter_cons_of_neg (by simp [significant,pad]),← later,pad,textSextets_padding,ite_self]
    rw [if_neg pad] at accepted
    by_cases padded : 0 < padding
    · rw [if_pos padded] at accepted
      cases accepted
    rw [if_neg padded] at accepted
    cases found : sextetOf c with
    | none =>
      rw [found] at accepted
      cases accepted
    | some x =>
      rw [found] at accepted
      have later := ih accepted
      obtain rfl : padding = 0 := by omega
      rw [if_pos rfl] at later ⊢
      rw [textSextets_next (by simpa using space) found,length_cons,later,filter_cons_of_pos (by simp [significant,space,pad]),
        length_cons]
end

section
variable {page : Page} {url_safe : Bool} {str : TeString} {content : CStr} {latch bits n : Nat}

theorem encodeBits_succeeds (fuel : Nat) (printable : Printable str content) (fresh : Fresh str) (ample : Ample n)
    (room : 6*content.length+bits+24 ≤ 6*n) :
    Succeeds True (encodeBits page url_safe latch fuel bits str) fun r =>
      ∃ content', Printable r.1 content' ∧ Fresh r.1 ∧ 6*content'.length+r.2 = 6*content.length+bits := by
  induction fuel generalizing str content bits with
  | zero => exact ⟨content,printable,fresh,rfl⟩
  | succ fuel ih =>
    rw [encodeBits]
    split_ifs with enough
    · have sextet := @append_succeeds page _ _ [encode_base64_bits (extractBits latch (bits-6) 6) url_safe] printable fresh
      refine (sextet.weaken fun _ => ⟨ample.mono (by rw [length_singleton]; omega),show 1 ≤ INT_MAX by decide⟩).bind fun s holds => ?_
      have length : (content ++ [encode_base64_bits (extractBits latch (bits-6) 6) url_safe]).length = content.length+1 := by simp
      refine (ih holds.printable (holds.fresh (by simp)) (by omega)).mono fun r done => ?_
      obtain ⟨content',printable',fresh',count⟩ := done
      exact ⟨content',printable',fresh',by omega⟩
    · exact ⟨content,printable,fresh,rfl⟩
theorem encodeLoop_succeeds (bytes : List UInt8) (printable : Printable str content) (fresh : Fresh str) (ample : Ample n)
    (room : 6*content.length+bits+8*bytes.length+24 ≤ 6*n) :
    Succeeds True (encodeLoop page url_safe bytes latch bits str >>= encodeRest page url_safe) fun _ => True := by
  induction bytes generalizing str content latch bits with
  | nil =>
    show Succeeds True (encodeRest page url_safe (str,latch,bits)) _
    rw [encodeRest]
    rw [length_nil] at room
    split_ifs with some' two
    · have last := @append_succeeds page _ _ [encode_base64_bits (extractBits latch 0 bits*2^(6-bits)) url_safe,'=','='] printable fresh
      exact (last.weaken fun _ => ⟨ample.mono (show content.length+3+1 ≤ n by omega),show 3 ≤ INT_MAX by decide⟩).mono fun _ _ => trivial
    · have last := @append_succeeds page _ _ [encode_base64_bits (extractBits latch 0 bits*2^(6-bits)) url_safe,'='] printable fresh
      exact (last.weaken fun _ => ⟨ample.mono (show content.length+2+1 ≤ n by omega),show 2 ≤ INT_MAX by decide⟩).mono fun _ _ => trivial
    · trivial
  | cons byte bytes ih =>
    rw [length_cons] at room
    rw [encodeLoop,bind_assoc]
    refine (encodeBits_succeeds (bits+8) printable fresh ample (by omega)).bind fun r done => ?_
    obtain ⟨content',printable',fresh',count⟩ := done
    exact ih printable' fresh' (by omega)
/-- Two characters for each byte and those of the padding are more than enough. -/
theorem encode_succeeds (bytes : List UInt8) (holds : HoldsText str content) (fresh : Fresh str) :
    Succeeds (Ample (str.size+content.length+2*bytes.length+4)) (te_string_encode_base64 page str bytes url_safe) fun s =>
      HoldsText s (content ++ base64Text url_safe bytes) := by
  refine .of_safe (encode_holds bytes holds) fun ample => ?_
  have range : (str.size+bytes.length*4%SIZE_MOD/3)%SIZE_MOD ≤ str.size+2*bytes.length := by grind [SIZE_MOD]
  have text := Ample.mono ample (show content.length+2*bytes.length+4 ≤ _ by omega)
  rw [te_string_encode_base64]
  by_cases grows : (str.size+bytes.length*4%SIZE_MOD/3)%SIZE_MOD ≤ str.size
  · rw [te_string_reserve,if_pos grows]
    exact (encodeLoop_succeeds bytes holds.printable fresh text (by omega)).lives trivial
  · have reserve := @reserve_printable page _ _ _ holds (Nat.lt_of_not_le grows) (mod_lt _ (by decide))
    have reserved := Succeeds.of_safe reserve fun _ : True => reserve_lives (ample.mono (by omega))
    refine (reserved.bind (Q := fun _ => True) fun s done => ?_).lives trivial
    obtain ⟨printable,own⟩ := done
    exact encodeLoop_succeeds bytes printable (fun ptr => absurd ptr own) text (by omega)
/-- A text decodes to fewer bytes than it has characters. -/
theorem decodeLoop_succeeds (src : CStr) (padding : Nat) (holds : HoldsText str content) (fresh : Fresh str) (ample : Ample n)
    (room : content.length+src.length+2 ≤ n) : Succeeds True (decodeLoop page src latch bits padding str) fun _ => True := by
  induction src generalizing str content latch bits padding with
  | nil => trivial
  | cons c src ih =>
    rw [length_cons] at room
    have later (bits padding latch : Nat) := @ih _ _ latch bits padding holds fresh (by omega)
    rw [decodeLoop]
    cases sextetOf c with
    | none =>
      simp only
      split_ifs
      · exact later _ _ _
      · trivial
      · exact later _ _ _
      · trivial
      · trivial
    | some x =>
      simp only
      split_ifs
      · exact later _ _ _
      · trivial
      · exact later _ _ _
      · trivial
      · have byte := @append_buf_succeeds page _ _ (.bytes [Char.ofNat (extractBits (latch*2^6%UINT32_MOD+x) (bits+6-8) 8)])
          holds fresh (show 1 ≤ PTRDIFF_MAX by decide)
        refine (byte.weaken fun _ => ample.mono ?_).bind fun s holds' => ?_
        · show content.length+1+1 ≤ n
          omega
        · exact ih _ holds' (holds'.fresh (by simp [Source.text])) (by simp [Source.text]; omega)
      · exact later _ _ _
theorem decode_succeeds (base64str : CStr) (holds : HoldsText str content) (fresh : Fresh str) :
    Succeeds (Ample (content.length+base64str.length+2)) (te_string_decode_base64 page str base64str) fun r =>
      HoldsText r.1 (content ++ decodedText base64str) ∧ r.2 = decodeStatus base64str 0 0 := by
  have safe := @decode_holds page _ _ base64str holds fun ptr => .inl (by rw [fresh ptr]; decide)
  have call := Succeeds.of_safe safe fun ample => (decodeLoop_succeeds base64str 0 holds fresh ample le_rfl).lives trivial
  cases result : te_string_decode_base64 page str base64str with
  | ok r =>
    rw [result] at call
    exact ⟨call,decodeLoop_status result⟩
  | error stop =>
    rw [result] at call
    cases stop with
    | fatal => exact call
    | fault => exact call
end

section
variable {page : Page}

/-- Encoded bytes are decoded from the text with any white space in it, and what is accepted decodes
    to as many whole bytes as its significant characters carry. -/
theorem base64_round_trip :
    (∀ str content bytes url_safe, HoldsText str content → Fresh str →
      Succeeds (Ample (str.size+content.length+2*bytes.length+4)) (te_string_encode_base64 page str bytes url_safe) fun str' =>
        ∃ text, HoldsText str' (content ++ text) ∧ ∀ spaced dst before, spaced.filter (! isspace ·) = text → HoldsText dst before → Fresh dst →
          Succeeds (Ample (before.length+spaced.length+2)) (te_string_decode_base64 page dst spaced) fun r =>
            r.2 = .ok ∧ HoldsText r.1 (before ++ byteChars bytes)) ∧
    (∀ dst before base64str, HoldsText dst before → Fresh dst →
      Succeeds (Ample (before.length+base64str.length+2)) (te_string_decode_base64 page dst base64str) fun r =>
        r.2 = .ok → ∃ decoded, HoldsText r.1 (before ++ decoded) ∧ decoded.length = 6*(base64str.filter significant).length/8) := by
  constructor
  · intro str content bytes url_safe holds fresh
    refine (encode_succeeds bytes holds fresh).mono fun str' encoded => ⟨base64Text url_safe bytes,encoded,?_⟩
    intro spaced dst before inserted holds' fresh'
    refine (decode_succeeds spaced holds' fresh').mono fun r ⟨decoded,status⟩ => ⟨?_,?_⟩
    · rw [status,← decodeStatus_spaced,inserted,decodeStatus_text]
    · rwa [decodedText_spaced inserted] at decoded
  · intro dst before base64str holds fresh
    refine (decode_succeeds base64str holds fresh).mono fun r ⟨decoded,status⟩ accepted => ⟨_,decoded,?_⟩
    have count := textSextets_length (status.symm.trans accepted)
    rw [if_pos rfl] at count
    rw [decodedText,length_map,sextetBytes_length,count]
theorem base64_round_trip_byte :
    Succeeds (Ample (0+0+2*1+4)) (te_string_encode_base64 ⟨4096,by decide,by decide⟩ (TE_STRING_INIT_RESERVE 0) [77] false) (fun str' =>
      ∃ text, HoldsText str' ([] ++ text) ∧ ∀ spaced dst before, spaced.filter (! isspace ·) = text → HoldsText dst before → Fresh dst →
        Succeeds (Ample (before.length+spaced.length+2)) (te_string_decode_base64 ⟨4096,by decide,by decide⟩ dst spaced) fun r =>
          r.2 = .ok ∧ HoldsText r.1 (before ++ ['M'])) ∧
    Succeeds (Ample (0+4+2)) (te_string_decode_base64 ⟨4096,by decide,by decide⟩ (TE_STRING_INIT_RESERVE 0) "TQ==".toList) fun r =>
      r.2 = .ok → ∃ decoded, HoldsText r.1 ([] ++ decoded) ∧ decoded.length = 1 :=
  ⟨base64_round_trip.1 (TE_STRING_INIT_RESERVE 0) [] [77] false (.null rfl rfl rfl) fun _ => rfl,
    base64_round_trip.2 (TE_STRING_INIT_RESERVE 0) [] "TQ==".toList (.null rfl rfl rfl) fun _ => rfl⟩
end
end TestEnvironment.Tools
