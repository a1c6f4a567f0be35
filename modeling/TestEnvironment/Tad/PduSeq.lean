import TestEnvironment.Lib.Embeddings
import TestEnvironment.Lib.Decimal
import TestEnvironment.Tad.Packet

/-!
The PDUs of a traffic template completed to the layers of a CSAP (`tad_check_pdu_seq` in
`tad_utils.c`). A value of an ASN.1 type is kept as far as the completion looks at it: a
sequence with its elements, a PDU with its tag and a content of any type. Of the parser of
values the texts with an empty pair of braces are modelled; what reads the members of a
structure, and the value such a type starts with, are parameters. The protocols are those
of a library with SNMP; without it no CSAP has a layer of that name.
-/
namespace TestEnvironment.Tad
open Lib

/-- `te_tad_protocols_t`. -/
inductive TeTadProtocols
  | INVALID | AAL5 | ARP | ATM | BRIDGE | CLI | DHCP | DHCP6 | ETH | ICMP4 | IP4 | ISCSI | PCAP | SNMP | TCP | UDP
  | SOCKET | IGMP | ICMP6 | IP6 | PPP | PPPOE | RTE_MBUF | VXLAN | GENEVE | GRE
  deriving DecidableEq, Repr
inductive PduSeqStatus
  | ok | ETADWRONGNDS | EASNINCOMPLVAL | EASNWRONGLABEL | EASNTXTVALNAME | EASNTXTSEPAR | EASNTXTPARSE | ESMALLBUF
  deriving DecidableEq, Repr

/-- The names that `te_proto_from_str` compares with, by their first letters. -/
def protoNames : List (CStr × TeTadProtocols) :=
  [("arp".toList,.ARP),("atm".toList,.ATM),("aal5".toList,.AAL5),("bridge".toList,.BRIDGE),("cli".toList,.CLI),
    ("dhcp".toList,.DHCP),("dhcp6".toList,.DHCP6),("eth".toList,.ETH),("geneve".toList,.GENEVE),("gre".toList,.GRE),
    ("ip4".toList,.IP4),("ip6".toList,.IP6),("icmp4".toList,.ICMP4),("icmp6".toList,.ICMP6),("iscsi".toList,.ISCSI),
    ("igmp".toList,.IGMP),("pcap".toList,.PCAP),("pppoe".toList,.PPPOE),("ppp".toList,.PPP),("rtembuf".toList,.RTE_MBUF),
    ("snmp".toList,.SNMP),("socket".toList,.SOCKET),("tcp".toList,.TCP),("udp".toList,.UDP),("vxlan".toList,.VXLAN)]
def te_proto_from_str (proto_txt : CStr) : TeTadProtocols := (protoNames.lookup proto_txt).getD .INVALID
/-- The named entries of the choice `ndn_generic_pdu`, with their tags. -/
def ndn_generic_pdu : List (CStr × TeTadProtocols) :=
  [("atm".toList,.ATM),("aal5".toList,.AAL5),("pcap".toList,.PCAP),("eth".toList,.ETH),("bridge".toList,.BRIDGE),
    ("arp".toList,.ARP),("ip4".toList,.IP4),("ip6".toList,.IP6),("icmp4".toList,.ICMP4),("icmp6".toList,.ICMP6),
    ("udp".toList,.UDP),("dhcp".toList,.DHCP),("dhcp6".toList,.DHCP6),("tcp".toList,.TCP),("iscsi".toList,.ISCSI),
    ("snmp".toList,.SNMP),("cli".toList,.CLI),("socket".toList,.SOCKET),("igmp".toList,.IGMP),("ppp".toList,.PPP),
    ("pppoe".toList,.PPPOE),("rtembuf".toList,.RTE_MBUF),("vxlan".toList,.VXLAN),("geneve".toList,.GENEVE),("gre".toList,.GRE),
    ("void".toList,.INVALID)]

/-- `csap_layer_t`, as `csap_create` fills it in. -/
structure CsapLayer where
  proto : CStr
  proto_tag : TeTadProtocols
  tag_of : te_proto_from_str proto = proto_tag
  valid : proto_tag ≠ .INVALID
def MAX_CSAP_DEPTH : Nat := 200
/-- A CSAP by its layers; `csap_create` has room for `MAX_CSAP_DEPTH` of them. -/
structure Csap where
  layers : List CsapLayer
  depth_le : layers.length ≤ MAX_CSAP_DEPTH
def Csap.depth (csap : Csap) : Nat := csap.layers.length

/-- A value of a type SEQUENCE OF; its length is an unsigned int. -/
structure SequenceOf (α : Type) where
  array : List α
  len_lt : array.length < UINT_MOD
def SequenceOf.map {α β : Type} (f : α → β) (value : SequenceOf α) : SequenceOf β :=
  ⟨value.array.map f,by rw [length_map]; exact value.len_lt⟩
/-- A value of `ndn_generic_pdu`: the tag and the content of the PDU, if there is one. -/
abbrev GenericPdu (α : Type) := Option (TeTadProtocols × α)

section
variable {α : Type} (asn_init_value : TeTadProtocols → α) (members : TeTadProtocols → CStr → CStr → Except PduSeqStatus α)

def isLabel (c : Char) : Bool := isdigit c || c.isAlpha || c = '-'
/-- `asn_impl_pt_label`: the label and the text behind it, or an error and the text at which
    it occurs. -/
def asn_impl_pt_label (text : CStr) (size : Nat) : Except (PduSeqStatus × CStr) (CStr × CStr) :=
  let pt := text.dropWhile isspace
  let label := pt.takeWhile isLabel
  if ¬ pt.head?.any Char.isLower then .error (.EASNTXTVALNAME,pt)
  else if size < label.length+1 then .error (.ESMALLBUF,text.drop size)
  else .ok (label,pt.drop label.length)
def asn_impl_pt_named_array (type : TeTadProtocols) (text : CStr) : Except PduSeqStatus α :=
  match text.dropWhile isspace with
  | '{' :: pt =>
    match asn_impl_pt_label (pt.dropWhile isspace) 100 with
    | .error (_,'}' :: _) => .ok (asn_init_value type)
    | .error (rc,_) => .error rc
    | .ok (label_buf,pt) => members type label_buf pt
  | _ => .error .EASNTXTPARSE
def asn_impl_pt_null (type : TeTadProtocols) (text : CStr) : Except PduSeqStatus α :=
  if startsWith "NULL".toList text then .ok (asn_init_value type) else .error .EASNTXTPARSE
/-- `asn_parse_value_text` for the types of PDUs: all are sequences but that of `void`. -/
def asn_parse_pdu_text (type : TeTadProtocols) (text : CStr) : Except PduSeqStatus α :=
  if type = .INVALID then asn_impl_pt_null asn_init_value type text else asn_impl_pt_named_array asn_init_value members type text
/-- `asn_parse_value_text` for the choice `ndn_generic_pdu` (`asn_impl_pt_choice`). -/
def asn_parse_value_text (txt : CStr) : Except PduSeqStatus (GenericPdu α) :=
  match asn_impl_pt_label (txt.dropWhile isspace) 99 with
  | .error (rc,_) => .error rc
  | .ok (label_buf,pt) =>
    match ndn_generic_pdu.lookup label_buf with
    | none => .error .EASNTXTVALNAME
    | some subtype =>
      match pt.dropWhile isspace with
      | ':' :: pt => (asn_parse_pdu_text asn_init_value members subtype (pt.dropWhile isspace)).map fun subval => some (subtype,subval)
      | _ => .error .EASNTXTSEPAR
def asn_insert_indexed {β : Type} (value : SequenceOf β) (elem_value : β) (index : Int) : Except PduSeqStatus (SequenceOf β) :=
  let new_len : Int := (value.array.length+1 : Int).bmod UINT_MOD
  let at' := if index < 0 then index+new_len else index
  if inside : 0 ≤ at' ∧ at' < new_len then
    .ok ⟨value.array.take at'.toNat ++ elem_value :: value.array.drop at'.toNat,by
      have limit := value.len_lt
      simp only [new_len,Int.bmod,UINT_MOD,length_append,length_take,length_cons,length_drop] at inside limit ⊢
      omega⟩
  else .error .EASNWRONGLABEL

def tad_compare_seqs : List CsapLayer → Nat → List TeTadProtocols → Nat
  | [], nds_seq_len, _ => if nds_seq_len = 0 then 1 else 0
  | layer :: layers, nds_seq_len, nds_protos =>
    if nds_seq_len = 0 then 1
    else if layers.length+1 < nds_seq_len then 0
    else
      let both_shift := if nds_protos[0]? = some layer.proto_tag then tad_compare_seqs layers (nds_seq_len-1) nds_protos.tail else 0
      let csap_shift := if both_shift ≤ 1 then tad_compare_seqs layers nds_seq_len nds_protos else 0
      csap_shift+both_shift
/-- The loop that reads the tags of the PDUs. -/
def tagsLoop : List (GenericPdu α) → Nat → List TeTadProtocols → Except PduSeqStatus (List TeTadProtocols)
  | [], _, nds_protos => .ok nds_protos
  | none :: _, _, _ => .error .EASNINCOMPLVAL
  | some pdu :: pdus, i, nds_protos => tagsLoop pdus (i+1) (nds_protos.set i pdu.1)
/-- What `snprintf` writes into the buffer of 20 characters. -/
def emptyPduText (proto : CStr) : CStr := (proto ++ ":{}".toList).take 19
/-- The loop over the layers that inserts a PDU for every layer that has none; on failure
    with the PDUs as they are then. -/
def layersLoop (nds_protos : List TeTadProtocols) : List CsapLayer → Nat → Nat → SequenceOf (GenericPdu α) →
    Except (PduSeqStatus × SequenceOf (GenericPdu α)) (SequenceOf (GenericPdu α))
  | [], _, _, pdus => .ok pdus
  | layer :: layers, i, pos_in_old_nds, pdus =>
    if nds_protos[pos_in_old_nds]? = some layer.proto_tag then layersLoop nds_protos layers (i+1) (pos_in_old_nds+1) pdus
    else do
      let new_pdu ← (asn_parse_value_text asn_init_value members (emptyPduText layer.proto)).mapError (·,pdus)
      let inserted ← (asn_insert_indexed pdus new_pdu i).mapError (·,pdus)
      layersLoop nds_protos layers (i+1) pos_in_old_nds inserted
def tad_check_pdu_seq (csap : Csap) (pdus : SequenceOf (GenericPdu α)) : PduSeqStatus × SequenceOf (GenericPdu α) :=
  let nds_len := (pdus.array.length : Int).bmod UINT_MOD
  if nds_len > csap.depth then (.ETADWRONGNDS,pdus)
  else
    match tagsLoop (pdus.array.take nds_len.toNat) 0 (replicate csap.depth .INVALID) with
    | .error rc => (rc,pdus)
    | .ok nds_protos =>
      let ways_insert := tad_compare_seqs csap.layers (nds_len%SIZE_MOD).toNat nds_protos
      if ways_insert < 1 then (.ETADWRONGNDS,pdus)
      else if ways_insert > 1 then (.ETADWRONGNDS,pdus)
      else
        match layersLoop asn_init_value members nds_protos csap.layers 0 0 pdus with
        | .error failure => failure
        | .ok pdus => (.ok,pdus)
end

section
variable {α : Type} {asn_init_value : TeTadProtocols → α} {members : TeTadProtocols → CStr → CStr → Except PduSeqStatus α}

/-- Every name of a protocol is a label and names the PDU of its protocol. -/
theorem protoNames_labels : ∀ entry ∈ protoNames, (entry.1.all isLabel ∧ entry.1.head?.any Char.isLower ∧ entry.1.length ≤ 16) ∧
    ndn_generic_pdu.lookup entry.1 = some entry.2 := by
  decide
theorem label_start {label : CStr} (lower : label.head?.any Char.isLower) (rest : CStr) :
    (label ++ rest).dropWhile isspace = label ++ rest := by
  cases label with
  | nil => simp at lower
  | cons c label =>
    have range : 97 ≤ c.toNat := by
      simp only [head?_cons,Option.any_some,Char.isLower,and_eq_true,decide_eq_true_eq] at lower
      exact lower.1
    have other : c ≠ ' ' := by rintro rfl; simp at range
    have visible : isspace c = false := by
      simp [isspace,other]
      omega
    rw [cons_append,dropWhile_cons_of_neg (by simp [visible])]
theorem label_read {label rest : CStr} {size : Nat} (letters : label.all isLabel) (lower : label.head?.any Char.isLower)
    (short : label.length < size) (stop : rest.head?.all fun c => !isLabel c) :
    asn_impl_pt_label (label ++ rest) size = .ok (label,rest) := by
  have all : (label ++ rest).takeWhile isLabel = label := by
    rw [List.takeWhile_append_of_pos (by simpa using letters)]
    cases rest with
    | nil => simp
    | cons d rest => rw [List.takeWhile_cons_of_neg (by simpa using stop),append_nil]
  have first : (label ++ rest).head?.any Char.isLower := by
    cases label with
    | nil => simp at lower
    | cons c label => exact lower
  rw [asn_impl_pt_label,label_start lower,all,if_neg (not_not_intro first),if_neg (by omega),drop_left]
/-- The text that is made for a layer is read as an empty PDU of its protocol. -/
theorem layer_text_read (layer : CsapLayer) :
    asn_parse_value_text asn_init_value members (emptyPduText layer.proto) =
      .ok (some (layer.proto_tag,asn_init_value layer.proto_tag)) := by
  have found : protoNames.lookup layer.proto = some layer.proto_tag := by
    have tag := layer.tag_of
    rw [te_proto_from_str] at tag
    cases entry : protoNames.lookup layer.proto with
    | none => exact absurd (by rw [← tag,entry]; rfl) layer.valid
    | some other => rw [entry] at tag; exact congrArg some tag
  obtain ⟨front,behind,names,_⟩ := List.lookup_eq_some_iff.mp found
  have entry : (layer.proto,layer.proto_tag) ∈ protoNames := by rw [names]; simp
  obtain ⟨⟨letters,lower,short⟩,named⟩ := protoNames_labels _ entry
  dsimp only at letters lower short named
  have whole : emptyPduText layer.proto = layer.proto ++ ":{}".toList :=
    take_of_length_le (by rw [length_append]; simpa using short)
  have label : asn_impl_pt_label (layer.proto ++ ":{}".toList) 99 = .ok (layer.proto,":{}".toList) :=
    label_read letters lower (by omega) (by decide)
  have empty : asn_parse_pdu_text asn_init_value members layer.proto_tag "{}".toList = .ok (asn_init_value layer.proto_tag) := by
    rw [asn_parse_pdu_text,if_neg layer.valid]
    rfl
  simp only [asn_parse_value_text,whole,label_start lower,label,named]
  exact congrArg (Except.map fun subval => some (layer.proto_tag,subval)) empty
end

section
/-- The count is that of the embeddings, up to two. -/
theorem tad_compare_seqs_ways (layers : List CsapLayer) (part rest : List TeTadProtocols) :
    min (tad_compare_seqs layers part.length (part ++ rest)) 2 = min (embeddings (layers.map (·.proto_tag)) part).length 2 := by
  induction layers generalizing part rest with
  | nil => cases part <;> simp [tad_compare_seqs,embeddings]
  | cons layer layers ih =>
    cases part with
    | nil => rw [embeddings_nil]; rfl
    | cons b part =>
      have csap := ih (b :: part) rest
      have both := ih part rest
      rw [tad_compare_seqs,if_neg (by simp)]
      by_cases short : layers.length < part.length
      · simp [short,embeddings_short]
      · rw [if_neg (by simpa using short),map_cons,embeddings,length_append,length_map]
        simp only [cons_append,List.getElem?_cons_zero,some_inj,tail_cons,length_cons,Nat.add_sub_cancel,
          @eq_comm _ b] at csap both ⊢
        by_cases same : layer.proto_tag = b
        · rw [if_pos same,if_pos same,length_map]
          split_ifs <;> omega
        · rw [if_neg same,if_neg same,if_pos (by omega)]
          simpa using csap
end

section
variable {α : Type} {asn_init_value : TeTadProtocols → α} {members : TeTadProtocols → CStr → CStr → Except PduSeqStatus α}
  {given : List (TeTadProtocols × α)}

theorem tagsLoop_spec {front : List TeTadProtocols} {room : Nat} (fits : given.length ≤ room) :
    tagsLoop (given.map some) front.length (front ++ replicate room .INVALID) =
      .ok (front ++ given.map Prod.fst ++ replicate (room-given.length) .INVALID) := by
  induction given generalizing front room with
  | nil => simp [tagsLoop]
  | cons pdu given ih =>
    obtain ⟨room,rfl⟩ := succ_of_lt fits
    have next := @ih (front ++ [pdu.1]) room (by simpa using fits)
    rw [map_cons,tagsLoop,replicate_succ,List.set_append_right _ _ (le_refl _),Nat.sub_self,List.set_cons_zero]
    simpa using next
theorem insert_pdu_spec {β : Type} {pdus : SequenceOf β} {front rest : List β} {elem_value : β} (split : pdus.array = front ++ rest)
    (limit : pdus.array.length+1 < 2^31) :
    ∃ result, asn_insert_indexed pdus elem_value front.length = .ok result ∧ result.array = front ++ elem_value :: rest := by
  have len : ((pdus.array.length : Int)+1).bmod UINT_MOD = pdus.array.length+1 := by
    rw [UINT_MOD,Int.bmod_eq_of_le] <;> omega
  have inside : front.length ≤ pdus.array.length := by rw [split]; simp
  rw [asn_insert_indexed]
  simp only [len,if_neg (show ¬ ((front.length : Int) < 0) by omega)]
  rw [dif_pos (by omega)]
  exact ⟨_,rfl,by simp [split]⟩
theorem bind_mapError_ok {ε ε' β γ : Type} {x : Except ε β} {y : β} (ok : x = .ok y) {f : ε → ε'} {g : β → Except ε' γ} :
    (x.mapError f >>= g) = g y := by
  subst ok; rfl
variable {layers : List CsapLayer} {nds_protos : List TeTadProtocols} {pdus : SequenceOf (GenericPdu α)} {csap : Csap}

/-- A step that finds no PDU for its layer goes on behind the inserted one. -/
theorem layersLoop_insert {layer : CsapLayer} {i pos : Nat}
    {inserted : SequenceOf (GenericPdu α)} (other : ¬ nds_protos[pos]? = some layer.proto_tag)
    (insert : asn_insert_indexed pdus (some (layer.proto_tag,asn_init_value layer.proto_tag)) i = .ok inserted) :
    layersLoop asn_init_value members nds_protos (layer :: layers) i pos pdus =
      layersLoop asn_init_value members nds_protos layers (i+1) pos inserted := by simp [other,insert,bind_mapError_ok,layer_text_read,layersLoop]
/-- The loop over the layers fills them up with empty PDUs. -/
theorem layersLoop_fill {front : List (GenericPdu α)} {pos rest : Nat} (split : pdus.array = front ++ given.map some)
    (tags : nds_protos.drop pos = given.map Prod.fst ++ replicate rest .INVALID)
    (limit : pdus.array.length+layers.length < 2^31) :
    ∃ result, layersLoop asn_init_value members nds_protos layers front.length pos pdus = .ok result ∧
      result.array = front ++ (fill Prod.fst (fun tag => (tag,asn_init_value tag)) (layers.map (·.proto_tag)) given).map some := by
  induction layers generalizing front pos pdus given with
  | nil => exact ⟨pdus,rfl,split⟩
  | cons layer layers ih =>
    have next : nds_protos[pos]? = (given.map Prod.fst ++ replicate rest .INVALID)[0]? := by rw [← tags,List.getElem?_drop,Nat.add_zero]
    simp only [length_cons] at limit
    obtain ⟨inserted,insert,array⟩ := @insert_pdu_spec _ pdus front _ (some (layer.proto_tag,asn_init_value layer.proto_tag)) split (by omega)
    have length : (front ++ [some (layer.proto_tag,asn_init_value layer.proto_tag)]).length = front.length+1 := by simp
    have grown : inserted.array.length = pdus.array.length+1 := by rw [array,split]; simp; omega
    -- an insertion goes on with the same PDUs behind the new one
    have filled := @ih given inserted (front ++ [some (layer.proto_tag,asn_init_value layer.proto_tag)]) pos (by simpa using array) tags (by omega)
    rw [length] at filled
    cases given with
    | nil =>
      have other : ¬ nds_protos[pos]? = some layer.proto_tag := by
        rw [next]
        cases rest with
        | zero => simp
        | succ => simpa [replicate_succ] using layer.valid.symm
      rw [layersLoop_insert other insert]
      simpa [fill] using filled
    | cons pdu given =>
      have tag : nds_protos[pos]? = some pdu.1 := next
      rw [map_cons,fill]
      by_cases same : pdu.1 = layer.proto_tag
      · have kept := @ih given pdus (front ++ [some pdu]) (pos+1) (by simpa using split)
          (by rw [← drop_drop,tags]; rfl) (by omega)
        rw [layersLoop,if_pos (by rw [tag,same]),if_pos same]
        simpa using kept
      · simp_all [layersLoop_insert]

theorem tad_compare_seqs_short {nds_seq_len : Nat} (short : layers.length < nds_seq_len)
    (nds_protos : List TeTadProtocols) : tad_compare_seqs layers nds_seq_len nds_protos = 0 := by
  cases layers with
  | nil => exact if_neg (ne_of_gt short)
  | cons layer layers =>
    have short : layers.length+1 < nds_seq_len := short
    rw [tad_compare_seqs,if_neg (by omega),if_pos short]
/-- More PDUs than layers are refused, also where their number is negative as an int. -/
theorem check_too_many (many : csap.depth < pdus.array.length) :
    tad_check_pdu_seq asn_init_value members csap pdus = (.ETADWRONGNDS,pdus) := by
  have limit := pdus.len_lt
  have depth : csap.depth ≤ 200 := csap.depth_le
  rw [tad_check_pdu_seq]
  by_cases positive : pdus.array.length < 2^31
  · have len : ((pdus.array.length : Int)).bmod UINT_MOD = pdus.array.length := by
      rw [UINT_MOD,Int.bmod_eq_of_le] <;> omega
    simp only [len]
    rw [if_pos (by omega)]
  · have len : ((pdus.array.length : Int)).bmod UINT_MOD = (pdus.array.length : Int)-UINT_MOD := by
      simp only [UINT_MOD,Int.bmod] at limit ⊢
      omega
    have size : (((pdus.array.length : Int)-UINT_MOD)%SIZE_MOD).toNat = SIZE_MOD-(UINT_MOD-pdus.array.length) := by
      simp only [UINT_MOD,SIZE_MOD] at limit ⊢
      omega
    have short : csap.layers.length < SIZE_MOD-(UINT_MOD-pdus.array.length) := by
      rw [Csap.depth] at depth
      simp only [UINT_MOD,SIZE_MOD]
      omega
    have none : ((pdus.array.length : Int)-UINT_MOD).toNat = 0 := by omega
    simp only [len,none,List.take_zero,tagsLoop,size,tad_compare_seqs_short short]
    rw [if_neg (by simp only [UINT_MOD] at limit ⊢; omega),if_pos Nat.one_pos]
/-- With no more PDUs than layers everything depends on the number of ways. -/
theorem check_counted (chosen : pdus.array = given.map some) (few : given.length ≤ csap.depth) :
    (∃ full, (embeddings (csap.layers.map (·.proto_tag)) (given.map Prod.fst)).length = 1 ∧
      tad_check_pdu_seq asn_init_value members csap pdus = (.ok,full) ∧
      full.array = (fill Prod.fst (fun tag => (tag,asn_init_value tag)) (csap.layers.map (·.proto_tag)) given).map some) ∨
    ((embeddings (csap.layers.map (·.proto_tag)) (given.map Prod.fst)).length ≠ 1 ∧
      tad_check_pdu_seq asn_init_value members csap pdus = (.ETADWRONGNDS,pdus)) := by
  have depth : csap.depth ≤ 200 := csap.depth_le
  have length : pdus.array.length = given.length := by rw [chosen,length_map]
  have len : ((pdus.array.length : Int)).bmod UINT_MOD = given.length := by
    rw [length,UINT_MOD,Int.bmod_eq_of_le] <;> omega
  have size : ((given.length : Int)%SIZE_MOD).toNat = given.length := by
    simp only [SIZE_MOD]
    omega
  have all : pdus.array.take ((given.length : Int)).toNat = given.map some := by simp [chosen]
  have tags : tagsLoop (given.map some) 0 (replicate csap.depth .INVALID) =
      .ok (given.map Prod.fst ++ replicate (csap.depth-given.length) .INVALID) := @tagsLoop_spec _ given [] _ few
  have ways := tad_compare_seqs_ways csap.layers (given.map Prod.fst) (replicate (csap.depth-given.length) .INVALID)
  rw [length_map] at ways
  rw [tad_check_pdu_seq]
  simp only [len,if_neg (show ¬ ((given.length : Int) > csap.depth) by omega),all,tags,size]
  by_cases one : (embeddings (csap.layers.map (·.proto_tag)) (given.map Prod.fst)).length = 1
  · obtain ⟨full,filled,array⟩ := @layersLoop_fill _ asn_init_value members given csap.layers _ pdus [] 0 (csap.depth-given.length) chosen
      (drop_zero) (by rw [Csap.depth] at *; omega)
    rw [if_neg (by omega),if_neg (by omega)]
    exact .inl ⟨full,one,by rw [length_nil] at filled; rw [filled],array⟩
  · grind
/-- The completion succeeds exactly if there is one and only one way to embed the protocols
    of the PDUs into those of the layers, and leaves one PDU for every layer, the given ones
    in their order and empty ones between them. -/
theorem tad_check_pdu_seq_embeds (csap : Csap) (given : SequenceOf (TeTadProtocols × α)) :
    let tags := csap.layers.map (·.proto_tag)
    let done := tad_check_pdu_seq asn_init_value members csap (given.map some)
    (done.1 = .ok ↔ ∃! positions, Embeds tags (given.array.map Prod.fst) positions) ∧
    (done.1 = .ok → ∃ full : List (TeTadProtocols × α), done.2.array = full.map some ∧ full.map Prod.fst = tags ∧
      ∃ positions, Embeds full given.array positions ∧
        ∀ i, i ∉ positions → full[i]? = tags[i]?.map fun tag => (tag,asn_init_value tag)) := by
  intro tags done
  rw [← embeddings_unique]
  by_cases few : given.array.length ≤ csap.depth
  · obtain ⟨full,one,checked,array⟩ | ⟨other,checked⟩ :=
      @check_counted _ asn_init_value members given.array (given.map some) csap rfl few
    · obtain ⟨positions,embeds,_⟩ := embeddings_unique.mp one
      obtain ⟨kinds,places,_,kept,made⟩ := @fill_spec _ _ tags _ _ Prod.fst (fun tag => (tag,asn_init_value tag)) given.array
        (fun _ _ => rfl) embeds
      refine ⟨⟨fun _ => one,fun _ => by rw [show done = _ from checked]⟩,fun _ => ⟨_,?_,kinds,places,kept,made⟩⟩
      rw [show done = _ from checked]
      exact array
    · grind
  · have refused : done.1 ≠ .ok := by
      rw [show done = _ from check_too_many (by simpa [SequenceOf.map] using few)]
      simp
    have none : embeddings tags (given.array.map Prod.fst) = [] := embeddings_short (by
      rw [Csap.depth] at few
      simpa [tags] using few)
    rw [none]
    exact ⟨⟨fun ok => absurd ok refused,fun one => absurd one (by simp)⟩,fun ok => absurd ok refused⟩
end
end TestEnvironment.Tad
